import Mathlib
import SwiftMacros.Proofs.Parser.Replay
import SwiftMacros.Proofs.Grammar.Paired

/-! Types are read alike where the same grains are ahead, if what is behind them belongs to no type. A
grammar of any level does, as long as there are fewer grains in the type than it has levels. -/

namespace SwiftMacros

open Token (Word Told)
open Grain (Ahead Front)
open SwiftMacros.Parser

/-- What can come behind a type. -/
def Grammar.calm : List Word :=
  [(.eof, []), (.symbol, [',']), (.symbol, [')']), (.symbol, [']']), (.symbol, [':']),
    (.symbol, [';']), (.symbol, ['\x7d']), (.operator, ['>']), (.operator, "...".toList)]

def Grammar.ampersand : Word := (.operator, ['&'])

/-- Behind a type of a composition, there is one more type or nothing that belongs to a type. -/
def Grammar.Linked (A B : List Grain) : Prop :=
  Grain.lead B ∈ calm ∨ Grain.lead A = ampersand ∧ Grain.lead B = ampersand

/-- Whether a metatype member comes first. -/
def Grammar.Metatype (A : List Grain) : Prop :=
  ∃ a b B, A = a :: b :: B ∧ a.word = (.dot, ['.']) ∧ isMetatypeName (Token.ofWord b.word) = true

/-- What can come behind a type with a name, a tuple type or a collection type. -/
def Grammar.Simple (_ B : List Grain) : Prop :=
  Grain.lead B ∈ (.operator, ['?']) :: (.operator, ['!']) :: ampersand :: calm ∨ Metatype B

/-- Whether a mark that belongs to the type in front of it comes first, or a metatype member. -/
def Grammar.Suffixed (A : List Grain) : Prop :=
  (∃ a B, A = a :: B ∧ a.gap = [] ∧ (Token.ofWord a.word).isMark = true) ∨ Metatype A

/-- Whether a type can go on. -/
def Grammar.Going (A : List Grain) : Prop := Grain.lead A = ampersand ∨ Suffixed A

/-- Nothing that belongs to a type comes, unless it does in both places. -/
def Grammar.Steady (A B : List Grain) : Prop := Grain.lead B ∈ calm ∨ Going A ∧ Simple A B

/-- A grammar whose types do not end where they could go on. -/
structure Grammar.Sated (g : Grammar) : Prop where
  type : ∀ c : Cursor, c.Reached → ∀ T c₁, g.type c = .ok T c₁ → ¬ Going c₁.grains
  constraint : ∀ c : Cursor, c.Reached → ∀ T c₁, g.constraint c = .ok T c₁ → ¬ Suffixed c₁.grains

/-- Two grammars of which the second answers as the first does, for types of less than `k` grains. -/
structure Grammar.Echoes (g g' : Grammar) (k : Nat) : Prop where
  pairs : g.Pairs
  pairs' : g'.Pairs
  sated : g.Sated
  type : ∀ c : Cursor, c.Reached →
    Replays k (fun _ _ => True) g.type (fun _ => g'.type) (fun _ => Front calm) c
  constraint : ∀ c : Cursor, c.Reached →
    Replays k (fun _ _ => True) g.constraint (fun _ => g'.constraint) (fun _ => Linked) c

namespace Grammar

variable {g g' : Grammar} {k : Nat} {o c : Cursor}

theorem type_takes (hg : g.Pairs) (hc : c.Reached) : Takes g.type c :=
  .of_spec hc (hg.reliable.type c hc.sound) fun _ _ h => h.lt

theorem constraint_takes (hg : g.Pairs) (hc : c.Reached) : Takes g.constraint c :=
  .of_spec hc (hg.reliable.constraint c hc.sound) fun _ _ h => h.lt

theorem told_isMetatypeName : Told isMetatypeName := Token.told_isIdentifierIn _

section Effects

/-- What can come behind the effects of a function. -/
def quiet : List Word :=
  (.arrow, "->".toList) :: (.dot, ['.']) :: (.operator, ['?']) :: (.operator, ['!']) :: ampersand :: calm

theorem parenFollows_congr {S : List Grain → List Grain → Prop} {c c' : Cursor} (hc : c.Reached)
    (hc' : c'.Braceless) (hS : Ahead S c.grains c'.grains) : parenFollows c' = parenFollows c := by
  obtain ⟨hview, hspace, -⟩ := hc.ahead hc'.reached hS
  rw [parenFollows, parenFollows, hspace, (Token.told_isSymbol "(").congr hview]

theorem effects_replay (hc : c.Reached) :
    Resumes k (fun _ _ => True) effects (fun _ => effects) (fun _ => Front quiet) o c := by
  have hT : Told isEffect := Token.told_isIdentifierIn effectKeywords
  have hwhole : ∀ {c : Cursor}, isEffect c.peek = true → c.peek.Whole := fun hm => by
    have hk := Token.kind_of_isIdentifierIn hm
    exact Token.whole_of_kind (by simp [hk]) (by simp [hk])
  refine .bind hc (Follows.pre (Resumes.collectWhile (G := Front quiet) hT (fun c₁ hc₁ hm => ?_) hc
    (fun A B hB => ?_) fun c₁ hc₁ hm => ?_) fun _ _ => trivial) fun _ _ _ hc₁ => .pure hc₁
  · have hs := hc₁.sound
    refine .of_spec (R := fun _ c₂ => c₁.peek.start < c₂.edge) hc₁ ?_ fun _ _ h => h
    exact Spec.consume_bind hs (Spec.get_bind (Spec.optional (Q := fun _ _ => True)
      (hs.advance 1).sound (fun _ => (Spec.skipBalanced (hs.advance 1).sound).lead) (fun _ => trivial)
      fun c₂ hl₂ _ => Spec.sliceFrom hl₂.sound (hs.peek_lt (hwhole hm).ne_eof hl₂)))
  · have : ∀ w ∈ quiet, isEffect (Token.ofWord w) = false := by decide
    exact this _ hB
  · refine Follows.pre (Follows.le (Resumes.of_replays (Replays.consume_bind (k := k) hc₁ (hwhole hm)
      fun hc₂ => ?_)) k.le_succ) fun _ _ => trivial
    have htext : ∀ {o' c'}, Cursor.Retrace c₁ (c₁.advance 1) o' c' → o'.peek.text = c₁.peek.text :=
      fun hr => congrArg Prod.snd (hr.word (hwhole hm))
    by_cases hp : (c₁.peek.text == "throws".toList && parenFollows (c₁.advance 1)) = true
    · refine Follows.pre (S := Ahead fun _ _ => True) (.get_bind (fun o' c' hr hS => if_pos ?_)
        (.pos hp (Resumes.bind hc₂ (Resumes.skipBalanced hc₂) fun _ c₃ _ hc₃ => Resumes.slice hc₃)))
        fun _ _ => trivial
      rw [htext hr, parenFollows_congr hc₂ hr.braceless hS]
      exact hp
    · refine Follows.pre (S := Resumes.Round isEffect (Front quiet)) (.get_bind (fun o' c' hr hS =>
        if_neg ?_) (.neg hp (Resumes.slice hc₂))) fun _ _ => trivial
      rw [htext hr]
      rcases hS with ⟨-, hS⟩ | ⟨-, -, hS⟩
      · rwa [parenFollows_congr hc₂ hr.braceless hS]
      · have hopen := hr.braceless.reached.told_front (Token.told_isSymbol "(") hS (b := false) (by decide)
        simp [parenFollows, hopen]

end Effects

section Types

variable (hg : g.Echoes g' k) (hc : c.Reached)
include hg hc

omit hc in
theorem genericClause_takes (hc : c.Reached) : Takes g.genericClause c :=
  .of_spec hc (genericClause_spec hg.pairs.reliable hc.sound) fun _ _ h => h.2.1

theorem genericClause_replay : Replays (k + 1) (fun A B => Grain.lead B = Grain.lead A) g.genericClause
    (fun _ => g'.genericClause) (fun _ _ _ => True) c := by
  have hcalm : ∀ w ∈ [(.symbol, [',']), (.operator, ['>'])], w ∈ calm := by decide
  refine .operator_bind (m := '<') hc rfl (fun t u h => ?_) fun hc₁ => .bind hc₁ (Resumes.separated
    (v := [(.operator, ['>'])]) (by decide) (fun c₂ hc₂ => type_takes hg.pairs hc₂) hc₁
    fun c₂ hc₂ => (hg.type c₂ hc₂).post fun _ _ _ h => hcalm _ h) fun _ c₂ _ hc₂ => ?_
  · simp only [sliceFrom_congr h, and_self]
  · refine Follows.pre (Resumes.operator_bind (m := '>') hc₂ rfl fun hc₃ => Resumes.slice hc₃) fun Y hY => ?_
    exact List.mem_singleton.mpr (hY.2.lead.trans hY.1)

/-- What can come behind the name of a type or of a member. -/
def dotted : List Word := (.dot, ['.']) :: (.operator, ['?']) :: (.operator, ['!']) :: ampersand :: calm

omit hg hc in
theorem genericsFollow_congr {S : List Grain → List Grain → Prop} {c' : Cursor} (hc : c.Reached)
    (hc' : c'.Braceless) (hS : Ahead S c.grains c'.grains) : genericsFollow c' = genericsFollow c := by
  obtain ⟨hview, hspace, -⟩ := hc.ahead hc'.reached hS
  have htold : c'.peek.isOperatorWith "<" = c.peek.isOperatorWith "<" :=
    (Token.told_isOperatorWith '<').congr hview
  rw [genericsFollow, genericsFollow, hspace, htold]

omit hg hc in
theorem genericsFollow_dotted {c' : Cursor} (hc' : c'.Braceless) (h : Grain.lead c'.grains ∈ dotted) :
    genericsFollow c' = false := by
  have htold : c'.peek.isOperatorWith "<" = false :=
    hc'.reached.told_front (Token.told_isOperatorWith '<') h (by decide)
  rw [genericsFollow, htold, Bool.false_and]

omit hg hc in
theorem Simple.dotted {A B : List Grain} (h : Simple A B) : Grain.lead B ∈ dotted := by
  rcases h with h | ⟨a, b, B, rfl, ha, -⟩
  · exact List.mem_cons_of_mem _ h
  · exact List.mem_cons.mpr (.inl ha)

omit hg hc in
/-- A dot that can come behind a type is that of a metatype member. -/
theorem metatype_of_simple {c' : Cursor} {A : List Grain} (hc' : c'.Braceless) (h : Simple A c'.grains)
    (hk : c'.peek.kind = .dot) : isMetatypeName (c'.peek 1) = true := by
  obtain ⟨hw, hword⟩ := hc'.sound.whole_of_dot hk
  have hlead : Grain.lead c'.grains = (.dot, ['.']) := by rw [← hc'.reached.view_peek, hw.view, hword]
  rcases h with h | ⟨a, b, B, hB, -, hb⟩
  · rw [hlead] at h
    exact absurd h (by decide)
  · rw [told_isMetatypeName, hc'.reached.view_second hw, hB]
    exact hb

theorem namedType_replay (hk : c.peek.kind = .identifier) :
    Replays (k + 1) (fun A B => Grain.lead B = Grain.lead A) g.namedType (fun _ => g'.namedType)
      (fun _ => Simple) c := by
  have hgenerics : ∀ c₁ : Cursor, c₁.Reached → Resumes k (Ahead fun _ _ => True) g.genericClause
      (fun _ => g'.genericClause) (fun _ => Front dotted) c c₁ := fun c₁ hc₁ =>
    Resumes.ahead (genericClause_takes hg hc₁) (Resumes.of_replays
      ((genericClause_replay hg hc₁).post fun _ _ _ _ => trivial) |>.le k.le_succ)
  have hw := Token.whole_of_kind (t := c.peek) (by simp [hk]) (by simp [hk])
  refine .consume_bind hc hw fun hc₁ => .optional hc₁ (fun _ => hgenerics _ hc₁)
    (fun c' hc' hS => genericsFollow_congr hc₁ hc' hS) (fun c' hc' hS => genericsFollow_dotted hc' hS)
    fun generics c₂ hc₂ => .sliceFrom_bind (Resumes.extend (S := Front dotted) (G := Simple)
      (fun o' c' hr => ?_) (fun node c₃ node' c₄ hc₃ hn => ?_) hc₂ fun node c₃ hc₃ => ?_)
  · rw [show o'.peek.text = c.peek.text from congrArg Prod.snd (hr.word hw)]
  · rw [get_bind_eq_ok] at hn
    rcases ite_eq_ok.mp hn with ⟨hm, hn⟩ | ⟨-, hn⟩
    · simp only [Bool.and_eq_true, beq_iff_eq] at hm
      refine (Takes.bind hc₃ (.skip hc₃ (hc₃.sound.whole_of_dot hm.1.1).1 1) (fun _ c₅ hc₅ => ?_) _ _ hn).2
      exact .get_bind (.ite (fun _ => .bind hc₅ (genericClause_paired hg.pairs hc₅) fun _ _ hc₆ =>
        .keep hc₆) fun _ => .keep hc₅)
    · cases hn
  · by_cases hm : (c₃.peek.kind == .dot && (c₃.peek 1).kind == .identifier &&
        !isMetatypeName (c₃.peek 1)) = true
    · have hm' := hm
      simp only [Bool.and_eq_true, beq_iff_eq] at hm'
      obtain ⟨hw₃, hdot⟩ := hc₃.sound.whole_of_dot hm'.1.1
      have hw₄ := Token.whole_of_kind (t := c₃.peek 1) (by simp [hm'.1.2]) (by simp [hm'.1.2])
      refine Follows.pre (S := Ahead (Ahead fun _ _ => True)) (.get_bind (fun o' c' hr hS => ?_) (.pos hm
        (Resumes.skip_two_bind hc₃ hw₃ hw₄ fun hc₅ => .optional hc₅ (x := []) (fun _ => hgenerics _ hc₅)
          (fun c' hc' hS => genericsFollow_congr hc₅ hc' hS)
          (fun c' hc' hS => genericsFollow_dotted hc' hS) fun _ c₆ hc₆ => Resumes.keep hc₆))) fun Y hY => ?_
      · obtain ⟨hview, hview'⟩ := hc₃.ahead_two hr.braceless.reached hw₃ hS
        have htext := Token.text_of_view hview' (by simp [hm'.1.2])
        refine (if_pos ?_).trans (by rw [htext])
        rw [Token.kind_of_view hview, Token.kind_of_view hview', (told_isMetatypeName).congr hview']
        exact hm
      · refine List.mem_cons.mpr (.inl ?_)
        rw [hY.lead, ← hc₃.view_peek, hw₃.view, hdot]
    · refine Follows.pre (S := Simple) (.get_bind (fun o' c' hr hS => if_neg fun hm => ?_) (.neg hm
        (Resumes.pure hc₃))) fun Y hY => Simple.dotted hY
      simp only [Bool.and_eq_true, beq_iff_eq, Bool.not_eq_true'] at hm
      exact absurd hm.2 (by simp [metatype_of_simple hr.braceless hS hm.1.1])

omit hg hc in
theorem Linked.front {A B : List Grain} (h : Linked A B) : Grain.lead B ∈ ampersand :: calm :=
  h.elim (List.mem_cons_of_mem _) fun h => List.mem_cons.mpr (.inl h.2)

omit hg hc in
theorem Steady.simple {A B : List Grain} (h : Steady A B) : Simple A B :=
  h.elim (fun h => .inl (List.mem_cons_of_mem _ (List.mem_cons_of_mem _ (List.mem_cons_of_mem _ h))))
    And.right

omit hg in
/-- A mark at the cursor belongs to the type before it if nothing stands between them. -/
theorem suffixed_of_mark (hm : (c.peek.isMark && !c.peek.spaceBefore) = true) : Suffixed c.grains := by
  simp only [Bool.and_eq_true, Bool.not_eq_true'] at hm
  cases hg : c.grains with
  | nil =>
    have := (Token.told_isMark c.peek).symm.trans hm.1
    rw [(hc.peek_of_nil hg).2] at this
    cases this
  | cons a A =>
    have hf := hc.faces hg
    refine .inl ⟨a, A, rfl, ?_, ?_⟩
    · have := hf.space.symm.trans hm.2
      simpa using this
    · rw [← hf.view, ← Token.told_isMark]
      exact hm.1

omit hg in
theorem metatype_iff : Metatype c.grains ↔ (c.peek.kind == .dot && isMetatypeName (c.peek 1)) = true := by
  simp only [Bool.and_eq_true, beq_iff_eq]
  constructor
  · rintro ⟨a, b, B, hA, ha, hb⟩
    have hview := (hc.faces hA).view
    have hk : c.peek.kind = .dot := by rw [← Token.view_fst, hview, ha]
    refine ⟨hk, ?_⟩
    rw [told_isMetatypeName, hc.view_second (hc.sound.whole_of_dot hk).1, hA]
    exact hb
  · rintro ⟨hk, hm⟩
    obtain ⟨hw, hdot⟩ := hc.sound.whole_of_dot hk
    obtain ⟨a, hA, ha, -⟩ := hc.grains_whole hw
    have hm' := (told_isMetatypeName _).symm.trans hm
    rw [hc.view_second hw, hA, List.tail_cons] at hm'
    cases hB : (c.advance 1).grains with
    | nil =>
      rw [hB] at hm'
      cases hm'
    | cons b B =>
      rw [hB] at hm'
      exact ⟨a, b, B, by rw [hA, hB], ha.trans hdot, hm'⟩

omit hg in
theorem suffixed_iff : Suffixed c.grains ↔ (c.peek.isMark && !c.peek.spaceBefore) = true ∨
    (c.peek.kind == .dot && isMetatypeName (c.peek 1)) = true := by
  rw [← metatype_iff hc]
  refine ⟨Or.imp_left ?_, fun h => h.elim (suffixed_of_mark hc) .inr⟩
  rintro ⟨a, A, hA, hgap, hm⟩
  have hf := hc.faces hA
  have hmark := (Token.told_isMark c.peek).trans (hf.view ▸ hm)
  rw [hmark, hf.space, hgap]
  rfl

omit hg hc in
/-- One mark or metatype member behind a type that begins at `start`. -/
def suffix (start : Token) (node : TypeTree) : Parser (Option TypeTree) := do
  let c ← get
  let t := c.peek
  if t.isMark && !t.spaceBefore then
    let mark ← consumePart 1
    let text ← sliceFrom start
    return some (if mark.text == ['?'] then .optional node text else .unwrapped node text)
  else if t.kind == .dot && isMetatypeName (c.peek 1) then
    skip 2
    return some (.metatype node (c.peek 1).text (← sliceFrom start))
  else return none

omit hg hc in
theorem typeSuffixes_eq (start : Token) (base : TypeTree) :
    typeSuffixes start base = extend (suffix start) base := rfl

omit hg in
theorem suffix_takes {start : Token} {node node' : TypeTree} {c₁ : Cursor}
    (h : suffix start node c = .ok (some node') c₁) : c.Leads c₁ ∧ c₁.grains.length < c.grains.length := by
  rw [suffix, get_bind_eq_ok] at h
  rcases ite_eq_ok.mp h with ⟨hm, h⟩ | ⟨-, h⟩
  · obtain ⟨m, hm, hv, -⟩ := Token.view_of_isMark (Bool.and_eq_true _ _ ▸ hm).1
    exact Takes.bind hc (.mark hc hm hv) (fun _ _ hc₂ => .keep hc₂) _ _ h
  · rcases ite_eq_ok.mp h with ⟨hm, h⟩ | ⟨-, h⟩
    · simp only [Bool.and_eq_true, beq_iff_eq] at hm
      exact Takes.bind hc (.skip hc (hc.sound.whole_of_dot hm.1).1 1) (fun _ _ hc₂ => .keep hc₂) _ _ h
    · cases h

omit hg in
/-- Marks and metatype members behind a type that starts at `o`. -/
theorem typeSuffixes_replay (base : TypeTree) : Resumes k Steady (typeSuffixes o.peek base)
    (fun o' => typeSuffixes o'.peek base) (fun _ => Linked) o c := by
  have hlinked : ∀ {c' : Cursor} {A : List Grain} {T : Token → Bool}, c'.Braceless →
      Linked A c'.grains → Told T → (∀ w ∈ ampersand :: calm, T (Token.ofWord w) = false) →
      T c'.peek = false := fun hc' h hT hw => hc'.reached.told_front hT h.front hw
  refine .extend (S := Steady) (G := Linked) (fun _ _ _ => rfl)
    (fun node c₁ node' c₂ hc₁ hn => (suffix_takes hc₁ hn).2) hc fun node c₁ hc₁ => ?_
  by_cases hm : (c₁.peek.isMark && !c₁.peek.spaceBefore) = true
  · obtain ⟨m, hchar, hv, hmark⟩ := Token.view_of_isMark (Bool.and_eq_true _ _ ▸ hm).1
    refine Follows.pre (S := Ahead Steady) (.get_bind (fun o' c' hr hS => if_pos ?_) (.pos hm
      (Resumes.mark_bind (q := fun o' => sliceFrom o'.peek >>= fun text => pure (some
          (if ([m] : Text) == ['?'] then .optional node text else .unwrapped node text)))
        hc₁ hchar hv (fun o' t ht => by rw [ht]) fun t ht hc₂ => by
          rw [ht]
          exact Resumes.keep hc₂))) fun Y hY => .inr ⟨.inr (suffixed_of_mark hc₁ hm), .inl ?_⟩
    · obtain ⟨hview, hspace, -⟩ := hc₁.ahead hr.braceless.reached hS
      rw [Token.told_isMark.congr hview, hspace]
      exact hm
    · rw [hY.lead, ← hc₁.view_peek, hv]
      rcases hmark with rfl | rfl <;> simp
  · by_cases hd : (c₁.peek.kind == .dot && isMetatypeName (c₁.peek 1)) = true
    · have hd' := hd
      simp only [Bool.and_eq_true, beq_iff_eq] at hd'
      obtain ⟨hw, hdot⟩ := hc₁.sound.whole_of_dot hd'.1
      have hk := Token.kind_of_isIdentifierIn hd'.2
      have hw' := Token.whole_of_kind (t := c₁.peek 1) (by simp [hk]) (by simp [hk])
      refine Follows.pre (S := Ahead (Ahead Steady)) (.get_bind (fun o' c' hr hS => ?_) (.neg hm (.pos hd
        (Resumes.skip_two_bind hc₁ hw hw' fun hc₂ => Resumes.keep hc₂)))) fun Y hY => ?_
      · obtain ⟨hview, hview'⟩ := hc₁.ahead_two hr.braceless.reached hw hS
        have htext := Token.text_of_view hview' (by simp [hk])
        have hkind := (Token.kind_of_view hview).trans hd'.1
        refine (if_neg ?_).trans ((if_pos ?_).trans (by rw [htext]))
        · simp [Token.isMark, hkind]
        · rw [hkind, told_isMetatypeName.congr hview', hd'.2]
          rfl
      · obtain ⟨a, b, A, hA, ha, hb⟩ := (metatype_iff hc₁).mpr hd
        rw [hA] at hY ⊢
        obtain ⟨_, _, B, h, rfl, _, _, C, h', rfl, -⟩ := hY
        obtain ⟨rfl, rfl⟩ := List.cons.inj h
        obtain ⟨rfl, rfl⟩ := List.cons.inj h'
        exact .inr ⟨.inr (.inr ⟨a, b, A, rfl, ha, hb⟩), .inr ⟨a, b, C, rfl, ha, hb⟩⟩
    · refine Follows.pre (S := Linked) (.get_bind (fun o' c' hr hS => (if_neg ?_).trans (if_neg ?_))
        (.neg hm (.neg hd (Resumes.pure hc₁)))) fun Y hY => hY.imp_right fun h => ⟨.inl h.1, .inl ?_⟩
      · simp [hlinked hr.braceless hS Token.told_isMark (by decide)]
      · simp [hlinked hr.braceless hS (Token.told_kind (· == .dot)) (by decide)]
      · rw [h.2]
        simp

omit hg in
/-- Where the suffixes of a type end, there is none ahead. -/
theorem typeSuffixes_sated {base T : TypeTree} {c₁ : Cursor} (h : typeSuffixes o.peek base c = .ok T c₁) :
    ¬ Suffixed c₁.grains := by
  refine ((Spec.extend (I := fun _ _ => True) (Q := fun _ c₂ => ¬ Suffixed c₂.grains)
    (fun node c₂ hl _ => ?_) hc.sound trivial).ok h).2
  have hc₂ := hc.lead hl
  refine Spec.get_bind (.ite (fun hm => ?_) fun hm => .ite (fun hd => ?_) fun hd => ?_)
  · simp only [Bool.and_eq_true] at hm
    obtain ⟨hk, m, hm, hmark⟩ := Token.mark_of_isMark hm.1
    exact Spec.consumePart_bind hc₂.sound hk hm hmark fun u c₃ hl₃ _ _ _ _ _ =>
      Spec.sliceFrom_bind (Spec.pure hl₃.sound ⟨fun _ _ => trivial, by simp⟩)
  · exact Spec.skip_bind hc₂.sound (Spec.sliceFrom_bind (Spec.pure (hc₂.sound.advance 2).sound
      ⟨fun _ _ => trivial, by simp⟩))
  · exact Spec.pure hc₂.sound ⟨by simp, fun _ => by rw [suffixed_iff hc₂, not_or]; exact ⟨hm, hd⟩⟩

theorem collectionType_replay (hk : c.peek.isSymbol "[" = true) :
    Replays (k + 1) (fun A B => Grain.lead B = Grain.lead A) g.collectionType
      (fun _ => g'.collectionType) (fun _ _ _ => True) c := by
  have hcalm : ∀ w ∈ [(.symbol, [':']), (.symbol, [']'])], w ∈ calm := by decide
  refine .consume_bind hc (Token.whole_of_has hk (by simp) (by simp)) fun hc₁ =>
    .bind hc₁ (.of_replays (hg.type _ hc₁)) fun element c₂ _ hc₂ => ?_
  have hlead := hc₂.view_peek
  by_cases hm : c₂.peek.isSymbol ":" = true
  · have hw := Token.whole_of_has hm (by simp) (by simp)
    refine Follows.pre (S := Ahead fun _ _ => True) (.current_bind (fun o' c' hr hS => if_pos ?_) (.pos hm
      (Resumes.skip_bind hc₂ hw fun hc₃ => Resumes.bind hc₃ (Resumes.of_replays (hg.type _ hc₃))
        fun value c₄ _ hc₄ => ?_))) fun Y hY => hcalm _ ?_
    · rw [hc₂.told_eq hr.braceless.reached (Token.told_isSymbol ":") hS.lead]
      exact hm
    · refine Follows.pre (Resumes.expect_bind (m := ']') hc₄ rfl fun hc₅ => Resumes.keep hc₅) fun Y hY => ?_
      rw [Front, hY.2.lead, hY.1]
      decide
    · rw [hY.lead, ← hlead, hw.view, Token.word_of_isSymbol hm]
      exact List.mem_cons_self
  · refine Follows.pre (.current_bind (fun o' c' hr hS => if_neg ?_) (.neg hm (Resumes.expect_bind
      (m := ']') hc₂ rfl fun hc₃ => Resumes.keep hc₃))) fun Y hY => hcalm _ ?_
    · rw [hc₂.told_eq hr.braceless.reached (Token.told_isSymbol ":") hS.2.lead]
      exact hm
    · rw [hY.2.lead, hY.1]
      exact List.mem_cons_of_mem _ List.mem_cons_self

end Types

end Grammar

end SwiftMacros
