import Mathlib
import SwiftMacros.Proofs.Grammar.Replay

/-! A type is read alike by grammars of any two levels. Where a type ends, no mark and no member that
goes on with it is ahead, so that a function type, which ends with its result, ends there too. -/

namespace SwiftMacros

open Token (Word Told)
open Grain (Ahead Front)
open SwiftMacros.Parser

namespace Grammar

variable {α : Type} {g g' : Grammar} {k : Nat} {o c : Cursor}

section Labels

/-- The first of the grains is a name, and the next one a colon, or a name in front of a colon. -/
def Labelled (A : List Grain) : Prop :=
  ∃ a b B, A = a :: b :: B ∧ a.kind = .identifier ∧ (b.word = (.symbol, [':']) ∨
    b.kind = .identifier ∧ Grain.lead B = (.symbol, [':']))

theorem peek_of_colon (hc : c.Reached) :
    c.peek.isSymbol ":" = true ↔ Grain.lead c.grains = (.symbol, [':']) := by
  rw [← hc.view_peek]
  constructor
  · intro h
    rw [(Token.whole_of_has h (by simp) (by simp)).view, Token.word_of_isSymbol h]
    rfl
  · intro h
    have hkind := Token.view_fst c.peek
    rw [h] at hkind
    rw [Token.view_of_kind (by simp [← hkind])] at h
    simp [Token.isSymbol, Token.has, Prod.mk.inj h]

theorem labelled_iff (hc : c.Reached) : Labelled c.grains ↔ c.peek.kind = .identifier ∧
    ((c.peek 1).isSymbol ":" = true ∨
      (c.peek 1).kind = .identifier ∧ (c.peek 2).isSymbol ":" = true) := by
  have hnext : ∀ {c : Cursor} {a : Grain} {A}, c.Reached → c.grains = a :: A → a.kind = .identifier →
      c.peek.kind = .identifier ∧ (c.advance 1).Reached ∧ (c.advance 1).grains = A := by
    intro c a A hc ha hk
    have hkind : c.peek.kind = .identifier := by
      rw [← Token.view_fst, (hc.faces ha).view]
      exact hk
    obtain ⟨x, hx, -, -⟩ := hc.grains_whole
      (Token.whole_of_kind (t := c.peek) (by simp [hkind]) (by simp [hkind]))
    exact ⟨hkind, hc.lead (hc.sound.advance 1), (List.cons.inj (hx.symm.trans ha)).2⟩
  have hpeek : ∀ {c : Cursor}, c.Reached → c.peek.kind = .identifier → ∃ a, c.grains =
      a :: (c.advance 1).grains ∧ a.kind = .identifier ∧ (c.advance 1).Reached := by
    intro c hc hk
    obtain ⟨x, hx, hword, -⟩ := hc.grains_whole
      (Token.whole_of_kind (t := c.peek) (by simp [hk]) (by simp [hk]))
    exact ⟨x, hx, (Prod.mk.inj hword).1.trans hk, hc.lead (hc.sound.advance 1)⟩
  constructor
  · rintro ⟨a, b, B, hA, ha, hb⟩
    obtain ⟨hk, hc₁, hA₁⟩ := hnext hc hA ha
    refine ⟨hk, hb.imp (fun hb => ?_) fun ⟨hb, hlead⟩ => ?_⟩
    · have := (peek_of_colon hc₁).mpr (by rw [hA₁]; exact hb)
      rwa [Cursor.peek_advance] at this
    · obtain ⟨hk₁, hc₂, hA₂⟩ := hnext hc₁ hA₁ hb
      have := (peek_of_colon hc₂).mpr (by rw [hA₂]; exact hlead)
      rw [Cursor.peek_advance] at hk₁
      rw [← Cursor.advance_add, Cursor.peek_advance] at this
      exact ⟨hk₁, this⟩
  · rintro ⟨hk, h⟩
    obtain ⟨a, hA, ha, hc₁⟩ := hpeek hc hk
    rcases h with h | ⟨hk₁, h⟩
    · have hlead := (peek_of_colon hc₁).mp (by rw [Cursor.peek_advance]; exact h)
      cases hg : (c.advance 1).grains with
      | nil =>
        rw [hg] at hlead
        cases hlead
      | cons b B =>
        rw [hg] at hlead
        exact ⟨a, b, B, by rw [hA, hg], ha, .inl hlead⟩
    · obtain ⟨b, hB, hb, hc₂⟩ := hpeek hc₁ (by rw [Cursor.peek_advance]; exact hk₁)
      have hlead := (peek_of_colon hc₂).mp (by
        rw [← Cursor.advance_add, Cursor.peek_advance]
        exact h)
      exact ⟨a, b, _, by rw [hA, hB], ha, .inr ⟨hb, hlead⟩⟩

/-- What can come behind the type of an element. -/
def elementEnds : List Word := (.operator, "...".toList) :: Replays.ends ')'

/-- What starts with no label does so as well in front of anything that can end an element. -/
theorem Labelled.of_parted {A B : List Grain} (h : Grain.Parted (Front elementEnds) A B)
    (hB : Labelled B) : Labelled A := by
  have hends : ∀ w ∈ elementEnds, w ≠ (.symbol, [':']) ∧ w.1 ≠ .identifier := by decide
  obtain ⟨W, W', A', B', hne, halike, rfl, rfl, hfront⟩ := h
  have hfirst := hends _ hfront
  obtain ⟨a, V, rfl⟩ := List.exists_cons_of_ne_nil hne
  obtain ⟨b, rfl, hword⟩ := Grain.alike_cons.mp halike
  obtain ⟨x, y, Y, hY, hx, hy⟩ := hB
  obtain ⟨rfl, hrest⟩ := List.cons.inj hY
  have ha : a.kind = .identifier := (Prod.mk.inj hword).1.trans hx
  cases V with
  | nil =>
    obtain rfl : B' = y :: Y := hrest
    rw [Grain.lead_cons] at hfirst
    exact absurd hy (not_or.mpr ⟨hfirst.1, fun h => hfirst.2 h.1⟩)
  | cons v V =>
    obtain ⟨rfl, rfl⟩ := List.cons.inj hrest
    refine ⟨a, v, V ++ A', rfl, ha, hy.imp_right fun ⟨hv, hlead⟩ => ⟨hv, ?_⟩⟩
    cases V with
    | nil => exact absurd hlead hfirst.1
    | cons z V => exact hlead

/-- A label of one name. -/
theorem label_one (hk : c.peek.kind = .identifier) (h : (c.peek 1).isSymbol ":" = true)
    {f : Option Text → Parser α} :
    (elementLabel >>= f) c = (skip 2 >>= fun _ => f (some c.peek.text)) c := by
  show ((if c.peek.kind == .identifier && (c.peek 1).isSymbol ":" then _ else _ : Parser _) >>= f) c = _
  rw [if_pos (by simp [hk, h])]
  rfl

/-- A label of two names. -/
theorem label_two (hk : c.peek.kind = .identifier) (hk' : (c.peek 1).kind = .identifier)
    (h : (c.peek 2).isSymbol ":" = true) {f : Option Text → Parser α} :
    (elementLabel >>= f) c = (skip 2 >>= fun _ => sliceFrom c.peek >>= fun label =>
      skip 1 >>= fun _ => f (some label)) c := by
  show ((if c.peek.kind == .identifier && (c.peek 1).isSymbol ":" then _ else if _ then _ else _ :
    Parser _) >>= f) c = _
  rw [if_neg (by simp [Token.isSymbol, Token.has, hk']), if_pos (by simp [hk, hk', h])]
  rfl

theorem label_none (hc : c.Reached) (h : ¬ Labelled c.grains) {f : Option Text → Parser α} :
    (elementLabel >>= f) c = f none c := by
  rw [labelled_iff hc, not_and_or, not_or, not_and_or] at h
  show ((if c.peek.kind == .identifier && (c.peek 1).isSymbol ":" then _ else if _ then _ else _ :
    Parser _) >>= f) c = _
  rw [if_neg, if_neg]
  · rfl
  · simp only [Bool.and_eq_true, beq_iff_eq]
    tauto
  · simp only [Bool.and_eq_true, beq_iff_eq]
    tauto

end Labels

section Elements

theorem skipEllipsis_replay (hc : c.Reached) : Resumes k (Front elementEnds) skipEllipsis
    (fun _ => skipEllipsis) (fun _ A B => Grain.lead A ∈ Replays.ends ')' ∧ Grain.lead B ∈ Replays.ends ')')
    o c := by
  have htold : Told (·.has .operator "...") := Token.told_has (by simp [Token.isMarkChar])
  by_cases hm : c.peek.has .operator "..." = true
  · have hw := Token.whole_of_has hm (by simp) (by simp [Token.isMarkChar])
    refine Follows.pre (.current_bind (fun o' c' hr hS => if_pos ?_) (.pos hm (Resumes.skip hc hw)))
      fun Y hY => ?_
    · rwa [hc.told_eq hr.braceless.reached htold hS.lead]
    · have hlead := hc.view_peek
      simp only [Token.has, Bool.and_eq_true, beq_iff_eq] at hm
      rw [hw.view, Token.word, hm.1, hm.2] at hlead
      exact List.mem_cons.mpr (.inl (hY.lead.trans hlead.symm))
  · refine Follows.pre (.current_bind (fun o' c' hr hS => if_neg ?_) (.neg hm (Resumes.pure hc)))
      fun Y hY => List.mem_cons_of_mem _ hY.2
    rw [hr.braceless.reached.told_front (b := false) htold hS.2 (by decide)]
    exact Bool.false_ne_true

/-- The element of a tuple type behind its label. -/
def elementBehind (g : Grammar) (first : Token) (label : Option Text) : Parser TypeElement := do
  let type ← g.type
  skipEllipsis
  return TypeElement.mk type label (← sliceFrom first)

def element (g : Grammar) : Parser TypeElement := do
  let first ← current
  let label ← elementLabel
  elementBehind g first label

variable (hg : g.Echoes g' k) (hc : c.Reached)
include hg hc

omit hc in
theorem type_elementEnds (hc : c.Reached) : Replays k (fun _ _ => True) g.type (fun _ => g'.type)
    (fun _ => Front elementEnds) c := by
  have hcalm : ∀ w ∈ elementEnds, w ∈ calm := by decide
  exact (hg.type c hc).post fun _ _ _ h => hcalm _ h

theorem elementBehind_replay (label : Option Text) : Resumes k (fun _ _ => True)
    (elementBehind g o.peek label) (fun o' => elementBehind g' o'.peek label)
    (fun _ A B => Grain.lead A ∈ Replays.ends ')' ∧ Grain.lead B ∈ Replays.ends ')') o c :=
  .bind hc (.of_replays (type_elementEnds hg hc)) fun T _ _ hc₁ =>
    .bind hc₁ (skipEllipsis_replay hc₁) fun _ _ _ hc₂ =>
      Resumes.keep (E := fun _ A B => Grain.lead A ∈ Replays.ends ')' ∧ Grain.lead B ∈ Replays.ends ')')
        (f := fun x => TypeElement.mk T label x) hc₂

omit hg in
theorem element_takes (hg : g.Pairs) : Takes (element g) c :=
  .current_bind (.after hc (elementLabel_paired hc) fun _ _ hc₁ => .bind hc₁ (type_takes hg hc₁)
    fun _ _ hc₂ => .bind hc₂ (skipEllipsis_paired hc₂) fun _ _ hc₃ => .keep hc₃)

theorem element_replay : Replays k (fun _ _ => True) (element g) (fun _ => element g')
    (fun _ A B => Grain.lead A ∈ Replays.ends ')' ∧ Grain.lead B ∈ Replays.ends ')') c := by
  have hc₁ := hc.lead (hc.sound.advance 1)
  have htold := Token.told_isSymbol ":"
  have hkind : ∀ {t u : Token}, u.view = t.view → t.kind = .identifier → u.kind = .identifier :=
    fun hv hk => (Token.kind_of_view hv).trans hk
  by_cases hlabel : Labelled c.grains
  · obtain ⟨hk, h⟩ := (labelled_iff hc).mp hlabel
    have hw := Token.whole_of_kind (t := c.peek) (by simp [hk]) (by simp [hk])
    rcases h with h | ⟨hk', h⟩
    · have hw' := Token.whole_of_has h (by simp) (by simp)
      refine Follows.pre (Follows.le (Follows.right (Follows.left (Replays.skip_two_bind (k := k)
        (q := fun o' => elementBehind g' o'.peek (some c.peek.text)) hc hw hw' fun hc₂ =>
          elementBehind_replay hg hc₂ (some c.peek.text)) (label_one hk h)) ?_) k.le_succ) fun _ _ => trivial
      rintro c' _ ⟨rfl, hc'⟩ hS
      obtain ⟨hword, -, hS⟩ := hc.onward hc'.reached hw hS
      have hview := (hc₁.ahead (hc'.lead (hc'.sound.advance 1)).reached hS).1
      rw [Cursor.peek_advance, Cursor.peek_advance] at hview
      obtain ⟨hkind', htext⟩ := Prod.mk.inj hword
      rw [← htext]
      exact label_one (hkind'.trans hk) ((htold.congr hview).trans h)
    · have hw' := Token.whole_of_kind (t := c.peek 1) (by simp [hk']) (by simp [hk'])
      have hw₂ : (c.advance 2).peek.Whole := by
        rw [Cursor.peek_advance]
        exact Token.whole_of_has h (by simp) (by simp)
      refine Follows.pre (Follows.le (Follows.right (Follows.left (Replays.skip_two_bind (k := k)
        (q := fun o' => sliceFrom o'.peek >>= fun label => skip 1 >>= fun _ =>
          elementBehind g' o'.peek (some label)) hc hw hw' fun hc₂ => Resumes.sliceFrom_bind
            (Resumes.skip_bind hc₂ hw₂ fun hc₃ => elementBehind_replay hg hc₃ _)) (label_two hk hk' h)) ?_)
        k.le_succ) fun _ _ => trivial
      rintro c' _ ⟨rfl, hc'⟩ hS
      obtain ⟨hword, -, hS⟩ := hc.onward hc'.reached hw hS
      have hw₁ : (c.advance 1).peek.Whole := by rwa [Cursor.peek_advance]
      obtain ⟨hview, hview'⟩ := hc₁.ahead_two (hc'.lead (hc'.sound.advance 1)).reached hw₁ hS
      rw [Cursor.peek_advance, Cursor.peek_advance] at hview
      rw [Cursor.peek_advance, Cursor.peek_advance] at hview'
      exact label_two ((Prod.mk.inj hword).1.trans hk) (hkind hview hk') ((htold.congr hview').trans h)
  · refine Follows.pre (Follows.right (Follows.left (p := elementBehind g c.peek none)
      (q := fun c' => elementBehind g' c'.peek none) (Replays.bind_within (type_takes hg.pairs hc) hc
      k.le_succ (Replays.parted (type_takes hg.pairs hc) (type_elementEnds hg hc)) fun T c₁ _ hc₁ =>
        .bind hc₁ (skipEllipsis_replay hc₁) fun _ _ _ hc₂ => Resumes.keep
          (E := fun _ A B => Grain.lead A ∈ Replays.ends ')' ∧ Grain.lead B ∈ Replays.ends ')')
          (f := fun x => TypeElement.mk T none x) hc₂)
      (label_none hc hlabel)) ?_) fun _ _ => trivial
    rintro c' _ ⟨rfl, hc'⟩ hS
    exact label_none hc'.reached fun h => hlabel (h.of_parted hS)

theorem element_paired : Paired (element g) c :=
  .current_bind (.bind hc (elementLabel_paired hc) fun _ _ hc₁ => .bind hc₁ (hg.pairs.type _ hc₁)
    fun _ _ hc₂ => .bind hc₂ (skipEllipsis_paired hc₂) fun _ _ hc₃ => .keep hc₃)

theorem tupleOrFunctionType_replay : Replays (k + 1) (fun A B => Grain.lead B = Grain.lead A)
    g.tupleOrFunctionType (fun _ => g'.tupleOrFunctionType) (fun _ => Steady) c := by
  have harrow : Told (·.has .arrow "->") := Token.told_has fun _ _ h => by cases h
  have htake : Takes (bracketed "(" ")" .tupleTypeSeparator (element g)) c := by
    intro es c₁ hes
    obtain ⟨hl, gap, gap', W, hW, -⟩ := Paired.of_bracketed (o := '(') (e := ')') (.inl ⟨rfl, rfl⟩) hc
      (fun _ hc₁ => element_paired hg hc₁) hes
    exact ⟨hl, by simp only [hW, List.length_append, List.length_cons]; omega⟩
  refine .current_bind (q := fun o' => bracketed "(" ")" .tupleTypeSeparator (element g') >>= fun elements =>
    effects >>= fun effects => current >>= fun t => if t.has .arrow "->" then skip 1 >>= fun _ =>
      g'.type >>= fun result => sliceFrom o'.peek >>= fun x => pure (.function elements result effects x)
      else if !effects.isEmpty then fail .effectArrow
      else sliceFrom o'.peek >>= fun x => pure (.tuple elements x)) (fun o' c' hQ _ => by rw [hQ.1]; rfl)
    (Replays.bind htake hc (Replays.bracketed (o := '(') (e := ')') rfl rfl (fun c₁ hc₁ => element_takes hc₁ hg.pairs)
      hc fun c₁ hc₁ => element_replay hg hc₁) fun elements c₁ _ hc₁ => .bind hc₁ (effects_replay hc₁)
        fun effects c₂ _ hc₂ => ?_)
  by_cases ha : c₂.peek.has .arrow "->" = true
  · have hw := Token.whole_of_has ha (by simp) (by simp)
    refine Follows.pre (S := Ahead fun _ _ => True) (.current_bind (fun o' c' hr hS => if_pos ?_) (.pos ha
      (Resumes.skip_bind hc₂ hw fun hc₃ => Resumes.bind hc₃ (Resumes.of_replays (hg.type _ hc₃))
        fun result c₄ hr hc₄ => Follows.pre (Resumes.keep (E := fun _ => Steady)
          (f := fun x => TypeTree.function elements result effects x) hc₄) fun Y hY => ?_))) fun Y hY => ?_
    · rw [hc₂.told_eq hr.braceless.reached harrow hS.lead]
      exact ha
    · exact hY.resolve_right fun h => hg.sated.type _ hc₃ _ _ hr h.1
    · have hword : c₂.peek.word = (.arrow, "->".toList) := by simpa [Token.has, Token.word] using ha
      rw [Front, hY.lead, ← hc₂.view_peek, hw.view, hword]
      exact List.mem_cons_self
  · have hplain : ∀ w ∈ dotted, (Token.ofWord w).has .arrow "->" = false := by decide
    refine Follows.pre (S := Steady) (.current_bind (fun o' c' hr hS => if_neg ?_) (.neg ha ?_))
      fun Y hY => List.mem_cons_of_mem _ hY.simple.dotted
    · rw [hr.braceless.reached.told_front harrow hS.simple.dotted hplain]
      exact Bool.false_ne_true
    · by_cases he : (!effects.isEmpty) = true
      · exact .pos he .fail
      · simp only [if_neg he]
        exact Resumes.keep (E := fun _ => Steady) (f := fun x => TypeTree.tuple elements x) hc₂

theorem simpleType_replay : Replays (k + 1) (fun A B => Grain.lead B = Grain.lead A)
    g.simpleType (fun _ => g'.simpleType) (fun _ => Steady) c := by
  have hT : ∀ {o' c' : Cursor} {T : Token → Bool} {b : Bool}, o' = c' ∧ c'.Braceless → Told T →
      Grain.lead c'.grains = Grain.lead c.grains → T c.peek = b → T c'.peek = b := fun hQ hT hS hb =>
    (hc.told_eq hQ.2.reached hT hS).trans hb
  have hsymbol := Token.told_isSymbol
  have hkind : Told fun t => t.kind == .identifier := Token.told_kind (· == .identifier)
  by_cases hp : c.peek.isSymbol "(" = true
  · exact .current_bind (fun o' c' hQ hS => if_pos (hT hQ (hsymbol _) hS hp)) (.pos hp
      (tupleOrFunctionType_replay hg hc))
  · rw [Bool.not_eq_true] at hp
    by_cases hb : c.peek.isSymbol "[" = true
    · refine .current_bind (fun o' c' hQ hS => ?_) (.neg (by simp [hp]) (.pos hb
        ((collectionType_replay hg hc hb).post fun _ _ _ _ => trivial)))
      rw [if_neg (by simp [hT hQ (hsymbol _) hS hp]), if_pos (hT hQ (hsymbol _) hS hb)]
    · rw [Bool.not_eq_true] at hb
      by_cases hk : (c.peek.kind == .identifier) = true
      · refine .current_bind (fun o' c' hQ hS => ?_) (.neg (by simp [hp]) (.neg (by simp [hb]) (.pos hk
          ((namedType_replay hg hc (by simpa using hk)).post fun _ _ _ h => h.simple))))
        rw [if_neg (by simp [hT hQ (hsymbol _) hS hp]), if_neg (by simp [hT hQ (hsymbol _) hS hb]),
          if_pos (hT hQ hkind hS hk)]
      · intro T c₁ h
        simp only [simpleType, current_bind_eq_ok, hp, hb, hk, Bool.false_eq_true, if_false, fail_eq_ok] at h

omit hg in
theorem simpleType_takes (hg : g.Pairs) : Takes g.simpleType c :=
  .of_spec hc (simpleType_spec hg.reliable hc.sound) fun _ _ h => h.lt

end Elements

section Attributes

/-- The text of an attribute or of a word that qualifies the type behind it. -/
def qualifier (g : Grammar) : Parser Text := do
  if (← current).kind == .atName then return (← g.attributeRule).text
  else return (← consume).text

theorem whole_of_qualifies (hq : qualifiesType c.peek = true) : c.peek.Whole := by
  simp only [qualifiesType, Bool.or_eq_true, beq_iff_eq] at hq
  have hk : c.peek.kind = .atName ∨ c.peek.kind = .identifier := hq.imp_right Token.kind_of_isIdentifierIn
  exact Token.whole_of_kind (by rcases hk with hk | hk <;> simp [hk])
    (by rcases hk with hk | hk <;> simp [hk])

theorem told_qualifiesType : Told qualifiesType :=
  (Token.told_kind (· == .atName)).or (Token.told_isIdentifierIn _)

theorem qualifier_takes (hg : g.Pairs) (hc : c.Reached) (hq : qualifiesType c.peek = true) :
    Takes (qualifier g) c := by
  have hw := whole_of_qualifies hq
  refine .current_bind (.ite (fun hk => ?_) fun hk => ?_)
  · refine .bind hc (fun a c₁ ha => ?_) fun _ _ hc₁ => .pure hc₁
    obtain ⟨x, hx, -⟩ := hc.grains_whole hw
    have hl := (attributeRule_cases hg hc ha).2.2.1
    obtain ⟨U, hU⟩ := (hc.lead (hc.sound.advance 1)).taken hl
    refine ⟨(hc.sound.advance 1).trans hl, ?_⟩
    rw [hx, hU, List.length_cons, List.length_append]
    omega
  · intro x c₁ hx
    obtain ⟨-, rfl⟩ := pure_eq_ok.mp (consume_bind_eq_ok (f := fun t => pure t.text).mp hx)
    exact Takes.skip hc hw 0 () _ rfl

theorem qualifier_paired (hg : g.Pairs) (hc : c.Reached) (hq : qualifiesType c.peek = true) :
    Paired (qualifier g) c := by
  refine .current_bind (.ite (fun _ => .bind hc (attributeRule_paired hg hc) fun _ _ hc₁ => .pure hc₁)
    fun hk => .consume_bind hc ?_ fun hc₁ => .pure hc₁)
  simp only [qualifiesType, Bool.or_eq_true] at hq
  exact Token.not_bracket_of_identifier (hq.resolve_left hk)

/-- The source of an attribute is told by its grains, and by whether its arguments directly follow. -/
theorem attribute_replay (hg : g.Pairs) (hg' : g'.Pairs) (hc : c.Reached) :
    Replays k (fun _ _ => True) (g.attributeRule >>= fun a => pure a.text)
      (fun _ => g'.attributeRule >>= fun a => pure a.text) (fun _ => Ahead fun _ _ => True) c := by
  intro x _ hx
  obtain ⟨a, c₁, ha, h⟩ := of_bind_ok hx
  obtain ⟨rfl, rfl⟩ := pure_eq_ok.mp h
  obtain ⟨hk, htext, hl₁, hend⟩ := attributeRule_cases hg hc ha
  have hc₁ := hc.lead (hc.sound.advance 1)
  have hl := (hc.sound.advance 1).trans hl₁
  have hw := Token.whole_of_kind (t := c.peek) (by simp [hk]) (by simp [hk])
  obtain ⟨x, hx, hword, hmark⟩ := hc.grains_whole hw
  obtain ⟨U, hU⟩ := hc₁.taken hl₁
  refine ⟨hl, fun W hW hnone W' halike => ⟨fun _ _ => trivial, ?_⟩⟩
  obtain rfl : W = x :: U := List.append_cancel_right (by rw [← hW, hx, hU, List.cons_append])
  obtain ⟨y, rfl, hxy⟩ := Grain.alike_cons.mp halike
  rintro - c' _ Y ⟨rfl, hc'⟩ hY hE
  have hmark' : ¬ y.IsMark := fun ⟨m, hm, hy⟩ => hmark ⟨m, hm, hxy.trans hy⟩
  obtain ⟨hword', hnext⟩ := hc'.reached.next hY hmark'
  have hk' : c'.peek.kind = .atName := by
    rw [show c'.peek.kind = c.peek.kind from congrArg Prod.fst (hword'.trans (hxy.symm.trans hword)), hk]
  have hc₁' := hc'.lead (hc'.sound.advance 1)
  -- the grain behind the name tells whether there are arguments
  have hparen : parenFollows (c'.advance 1) = parenFollows (c.advance 1) := by
    refine parenFollows_congr (S := fun _ _ => True) hc₁ hc₁' ?_
    rw [hU, hnext]
    cases U with
    | nil => exact hE
    | cons u U => exact ⟨u, _, _, rfl, rfl, trivial⟩
  have hbehind : parenFollows (c'.advance 1) = true → Grain.behind? 0 (c'.advance 1).grains = some Y := by
    intro hp
    rw [if_pos (hparen ▸ hp)] at hend
    have hend := hend U hU hnone.tail
    rw [hU] at hend
    rw [hnext]
    exact Grain.behind_append hend Y
  obtain ⟨a', c₂, ha'⟩ := exists_attributeRule hg' hc'.reached hk' hbehind
  obtain ⟨-, htext', hl₁', hend'⟩ := attributeRule_cases hg' hc'.reached ha'
  obtain ⟨U', hU'⟩ := hc₁'.reached.taken hl₁'
  have hl' := (hc'.sound.advance 1).trans hl₁'
  have hrest : c₂.grains = Y := by
    split at hend'
    next hp =>
      have hnone' : Grain.Unbraced U' := Grain.Unbraced.left (hU' ▸ hc₁'.none)
      exact Option.some.inj ((hend' U' hU' hnone').symm.trans (hbehind hp))
    next hp =>
      rw [if_neg (hparen ▸ hp)] at hend
      rw [hend] at hU
      have hnil : U = [] := by simpa using hU
      rw [hend', hnext, hnil]
      rfl
  have hr : Cursor.Retrace c c₁ c' c₂ := ⟨hc, hc'.reached, hl, hl', hc'.lead hl', x :: U, y :: U,
    by simp, halike, hW, by rw [hrest]; exact hY⟩
  exact ⟨c₂, (bind_of_ok ha').trans (pure_eq_ok.mpr ⟨by rw [htext', htext, hr.slice], rfl⟩), hl', hrest⟩

theorem qualifier_replay (hg : g.Pairs) (hg' : g'.Pairs) (hc : c.Reached)
    (hq : qualifiesType c.peek = true) : Replays (k + 1) (fun _ _ => True) (qualifier g)
      (fun _ => qualifier g') (fun _ => Ahead fun _ _ => True) c := by
  have hw := whole_of_qualifies hq
  have hT : Told fun t => t.kind == .atName := Token.told_kind (· == .atName)
  by_cases hk : (c.peek.kind == .atName) = true
  · have hleft : qualifier g c = (g.attributeRule >>= fun a => pure a.text) c := by
      show (if (c.peek.kind == .atName) = true then _ else _ : Parser Text) c = _
      rw [if_pos hk]
    have htake : Takes (g.attributeRule >>= fun a => pure a.text) c := fun x c₁ hx =>
      qualifier_takes hg hc hq x c₁ (hleft.trans hx)
    refine Follows.pre (Follows.current_bind (q := fun _ => g'.attributeRule >>= fun a => pure a.text)
      (fun o' c' hQ hS => if_pos ?_) (.pos hk (Replays.lead htake (attribute_replay hg hg' hc))))
      fun _ _ => trivial
    exact (hc.told_eq hQ.2.reached hT hS).trans hk
  · refine Follows.pre (S := fun A B => Grain.lead B = Grain.lead A) (Follows.current_bind (q := fun _ => consume >>= fun t => pure t.text)
      (fun o' c' hQ hS => if_neg ?_) (.neg hk (Replays.consume_bind hc hw fun hc₁ => ?_)))
      fun _ _ => trivial
    · exact fun h => hk ((hc.told_eq hQ.2.reached hT hS).symm.trans h)
    · refine Follows.pre (Follows.right (Resumes.pure (E := fun _ => Ahead fun _ _ => True) hc₁)
        fun o' c' hr _ => ?_) fun _ _ => trivial
      rw [show o'.peek.text = c.peek.text from congrArg Prod.snd (hr.word hw)]

end Attributes

section Constraints

theorem told_ampersand : Told (·.has .operator "&") := Token.told_has (by simp [Token.isMarkChar])

theorem lead_of_ampersand {w : Word} (h : (Token.ofWord w).has .operator "&" = true) : w = ampersand := by
  simp only [Token.has, Token.ofWord, Bool.and_eq_true, beq_iff_eq] at h
  exact Prod.ext h.1 h.2

theorem typeFollows_congr {c' : Cursor} {S : List Grain → List Grain → Prop} (hc : c.Reached)
    (hc' : c'.Braceless) (hS : Ahead S c.grains c'.grains) : typeFollows c'.peek = typeFollows c.peek := by
  have htold : Told fun t => t.kind == .identifier || t.isSymbolIn ["(", "["] :=
    (Token.told_kind (· == .identifier)).or (Token.told_isSymbolIn _)
  obtain ⟨hview, -, hnewline⟩ := hc.ahead hc'.reached hS
  have h : (c'.peek.kind == .identifier || c'.peek.isSymbolIn ["(", "["]) = _ := htold.congr hview
  rw [typeFollows, typeFollows, hnewline, h]

/-- A word that binds no type binds none where no type follows. -/
theorem unbound_parted {c' : Cursor} (hc : c.Reached) (hc' : c'.Braceless)
    (hS : Grain.Parted (Front dotted) c.grains c'.grains)
    (h : (c.peek.isIdentifierIn ["some", "any"] && typeFollows (c.peek 1)) = false) :
    (c'.peek.isIdentifierIn ["some", "any"] && typeFollows (c'.peek 1)) = false := by
  have hwords : Told (·.isIdentifierIn ["some", "any"]) := Token.told_isIdentifierIn _
  have htold : Told fun t => t.kind == .identifier || t.isSymbolIn ["(", "["] :=
    (Token.told_kind (· == .identifier)).or (Token.told_isSymbolIn _)
  have hplain : ∀ w ∈ dotted, ((Token.ofWord w).kind == .identifier ||
      (Token.ofWord w).isSymbolIn ["(", "["]) = false := by decide
  rw [hc.told_eq hc'.reached hwords hS.lead]
  cases hb : c.peek.isIdentifierIn ["some", "any"] with
  | false => rfl
  | true =>
    rw [hb, Bool.true_and] at h
    rw [Bool.true_and]
    have hk := Token.kind_of_isIdentifierIn hb
    obtain ⟨-, -, W, A, B, hA, hB, hfront⟩ := hc.onward hc'.reached
      (Token.whole_of_kind (by simp [hk]) (by simp [hk])) hS.onward
    have hc₁ := hc.lead (hc.sound.advance 1)
    have hc₁' := hc'.lead (hc'.sound.advance 1)
    have hpeek : (c'.advance 1).peek = c'.peek 1 := Cursor.peek_advance _ _ _
    have hpeek' : (c.advance 1).peek = c.peek 1 := Cursor.peek_advance _ _ _
    cases W with
    | nil =>
      have : ((c'.peek 1).kind == .identifier || (c'.peek 1).isSymbolIn ["(", "["]) = false :=
        hpeek ▸ hc₁'.reached.told_front htold (hB ▸ hfront) hplain
      rw [typeFollows, this, Bool.and_false]
    | cons w W =>
      rw [← hpeek, typeFollows_congr (S := fun _ _ => True) hc₁ hc₁' ⟨w, _, _, hA, hB, trivial⟩, hpeek', h]

theorem Linked.dotted {A B : List Grain} (h : Linked A B) : Front dotted A B :=
  List.mem_cons_of_mem _ (List.mem_cons_of_mem _ (List.mem_cons_of_mem _ h.front))

/-- A constraint ends where no suffix is ahead. -/
theorem constraintRule_sated (hg : g.Pairs) (hs : g.Sated) (hc : c.Reached) {T : TypeTree} {c₁ : Cursor}
    (h : g.constraintRule c = .ok T c₁) : ¬ Suffixed c₁.grains := by
  obtain ⟨hq, h⟩ | ⟨-, h⟩ := ite_eq_ok.mp (get_bind_eq_ok.mp h)
  · obtain ⟨as, c₂, has, h⟩ := of_bind_ok h
    have hpaired : Paired (Parser.collectWhile (fun c => qualifiesType c.peek) (qualifier g)) c :=
      .collectWhile hc fun c₃ hc₃ hq => qualifier_paired hg hc₃ hq
    have hc₂ := hc.lead (hpaired as c₂ has).leads
    obtain ⟨B, c₃, hB, h⟩ := of_bind_ok h
    simp only [sliceFrom_bind_eq_ok, pure_eq_ok] at h
    obtain ⟨-, rfl⟩ := h
    exact fun hsuffix => hs.type c₂ hc₂ B _ hB (.inr hsuffix)
  · obtain ⟨-, h⟩ | ⟨-, h⟩ := ite_eq_ok.mp h
    · obtain ⟨B, c₃, hB, h⟩ := of_bind_ok (skip_bind_eq_ok.mp h)
      simp only [sliceFrom_bind_eq_ok, pure_eq_ok] at h
      obtain ⟨-, rfl⟩ := h
      exact hs.constraint _ (hc.lead (hc.sound.advance 1)) B _ hB
    · obtain ⟨base, c₂, hbase, h⟩ := of_bind_ok h
      exact typeSuffixes_sated (hc.lead (simpleType_paired hg hc base c₂ hbase).leads) h

theorem typeRule_sated (hg : g.Pairs) (hs : g.Sated) (hc : c.Reached) {T : TypeTree} {c₁ : Cursor}
    (h : g.typeRule c = .ok T c₁) : ¬ Going c₁.grains := by
  obtain ⟨first, c₂, hfirst, h⟩ := of_bind_ok (current_bind_eq_ok.mp h)
  obtain ⟨others, c₃, hothers, h⟩ := of_bind_ok h
  obtain ⟨⟨hc₃, hsuffix⟩, hlast⟩ := of_collectWhile (I := fun _ c => c.Reached ∧ ¬ Suffixed c.grains) hothers
    ⟨hc.lead (constraintRule_paired hg hc _ _ hfirst).leads, constraintRule_sated hg hs hc hfirst⟩
    fun _ c a c' hP hm ha => by
      have hc₁ := hP.1.lead (hP.1.sound.advance 1)
      have ha := skip_bind_eq_ok.mp ha
      exact ⟨hc₁.lead (constraintRule_paired hg hc₁ _ _ ha).leads, constraintRule_sated hg hs hc₁ ha⟩
  have heq : c₃ = c₁ := by
    rcases ite_eq_ok.mp h with ⟨-, h⟩ | ⟨-, h⟩
    · exact (pure_eq_ok.mp h).2
    · simp only [sliceFrom_bind_eq_ok, pure_eq_ok] at h
      exact h.2
  subst heq
  rintro (hlead | h)
  · have htold := hc₃.told told_ampersand
    rw [hlead] at htold
    exact Bool.false_ne_true (hlast.symm.trans htold)
  · exact hsuffix h

variable (hg : g.Echoes g' k) (hc : c.Reached)
include hg hc

theorem constraintRule_replay : Replays (k + 1) (fun _ _ => True) g.constraintRule
    (fun _ => g'.constraintRule) (fun _ => Linked) c := by
  have hwords : Told (·.isIdentifierIn ["some", "any"]) := Token.told_isIdentifierIn _
  by_cases hq : qualifiesType c.peek = true
  · have htake : ∀ {g : Grammar}, g.Pairs → ∀ c : Cursor, c.Reached → qualifiesType c.peek = true →
        Takes (qualifier g) c := fun hg _ hc hq => qualifier_takes hg hc hq
    have hloop := Replays.collectWhile (k := k) (T := qualifiesType) told_qualifiesType
      (G := fun A B => qualifiesType (Token.ofWord (Grain.lead A)) = false ∧ Ahead (fun _ _ => True) A B)
      (htake hg.pairs) (htake hg.pairs') hc hq (fun A B h => by rw [h.2.lead]; exact h.1) fun c₁ hc₁ hq₁ =>
        (qualifier_replay hg.pairs hg.pairs' hc₁ hq₁).post fun _ _ _ h => h.elim And.right (·.2.2.2)
    refine Follows.pre (Follows.get_bind (q := fun o' => Parser.collectWhile (fun c => qualifiesType c.peek)
      (qualifier g') >>= fun as => g'.type >>= fun base => sliceFrom o'.peek >>= fun x =>
        pure (TypeTree.attributed as base x)) (fun o' c' hQ hS => ?_) (.pos hq (Replays.bind ?_ hc hloop
          fun as c₁ has hc₁ => Resumes.bind hc₁ (Follows.pre (Resumes.ahead (type_takes hg.pairs hc₁)
            (Resumes.of_replays (hg.type c₁ hc₁))) fun Y hY => ⟨?_, hY⟩) fun B c₂ hB hc₂ =>
              Follows.pre (Resumes.keep (E := fun _ => Linked) (f := fun x => TypeTree.attributed as B x) hc₂)
                fun Y hY => ?_))) fun _ _ => trivial
    · obtain ⟨rfl, hc'⟩ := hQ
      exact if_pos ((hc.told_eq hc'.reached told_qualifiesType hS).trans hq)
    · intro as c₁ has
      have hpaired : ∀ c₂ : Cursor, c₂.Reached → Paired (Parser.collectWhile (fun c => qualifiesType c.peek)
          (qualifier g)) c₂ := fun c₂ hc₂ =>
        .collectWhile hc₂ fun c₃ hc₃ hq₃ => qualifier_paired hg.pairs hc₃ hq₃
      exact Takes.bind hc (qualifier_takes hg.pairs hc hq) (fun _ c₂ hc₂ => .bind hc₂ (hpaired c₂ hc₂)
        fun _ _ hc₃ => .pure hc₃) as c₁ ((Takes.collectWhile_eq_ok (htake hg.pairs) hc hq).mp has)
    · rw [← hc₁.told told_qualifiesType]
      exact (of_collectWhile (I := fun _ _ => True) has trivial fun _ _ _ _ _ _ _ => trivial).2
    · exact hY.resolve_right fun h => hg.sated.type _ hc₁ _ _ hB (.inl h.1)
  · by_cases hs : (c.peek.isIdentifierIn ["some", "any"] && typeFollows (c.peek 1)) = true
    · have hs' := hs
      simp only [Bool.and_eq_true] at hs'
      have hk := Token.kind_of_isIdentifierIn hs'.1
      have hw := Token.whole_of_kind (t := c.peek) (by simp [hk]) (by simp [hk])
      refine Follows.pre (Follows.get_bind (q := fun o' => skip 1 >>= fun _ => g'.constraint >>= fun T =>
        sliceFrom o'.peek >>= fun x => pure (TypeTree.constrained c.peek.text T x)) (fun o' c' hQ hS => ?_)
          (.neg hq (.pos hs (Replays.skip_bind hc hw fun hc₁ => Resumes.bind hc₁ (Resumes.ahead
            (constraint_takes hg.pairs hc₁) (Resumes.of_replays (hg.constraint _ hc₁))) fun T c₂ hT hc₂ =>
              Resumes.keep (E := fun _ => Linked) (f := fun x => TypeTree.constrained c.peek.text T x) hc₂))))
        fun _ _ => trivial
      obtain ⟨rfl, hc'⟩ := hQ
      have hq' := (hc.told_eq hc'.reached told_qualifiesType hS.lead).trans (Bool.not_eq_true _ ▸ hq)
      have hs₁ := (hc.told_eq hc'.reached hwords hS.lead).trans hs'.1
      obtain ⟨hword, -, hS⟩ := hc.onward hc'.reached hw hS
      have hfollows := typeFollows_congr (hc.lead (hc.sound.advance 1)) (hc'.lead (hc'.sound.advance 1)) hS
      rw [Cursor.peek_advance, Cursor.peek_advance] at hfollows
      have htext : o'.peek.text = c.peek.text := congrArg Prod.snd hword
      rw [if_neg (by simp [hq']), if_pos (by simpa [hs₁] using hfollows.trans hs'.2), htext]
    · have hsimple : Replays (k + 1) (fun A B => Grain.lead B = Grain.lead A)
          (g.simpleType >>= fun T => typeSuffixes c.peek T)
          (fun o' => g'.simpleType >>= fun T => typeSuffixes o'.peek T) (fun _ => Linked) c :=
        Replays.bind (simpleType_takes hc hg.pairs) hc (simpleType_replay hg hc) fun T c₁ _ hc₁ =>
          typeSuffixes_replay hc₁ T
      have htake : Takes (g.simpleType >>= fun T => typeSuffixes c.peek T) c :=
        .bind hc (simpleType_takes hc hg.pairs) fun _ _ hc₁ => typeSuffixes_paired hc₁ _ _
      refine Follows.pre (Follows.get_bind (fun o' c' hQ hS => ?_) (.neg hq (.neg hs
        (Replays.parted htake hsimple)))) fun _ _ => trivial
      obtain ⟨rfl, hc'⟩ := hQ
      have hq' := (hc.told_eq hc'.reached told_qualifiesType hS.lead).trans (Bool.not_eq_true _ ▸ hq)
      rw [if_neg (by simp [hq']), if_neg]
      exact Bool.eq_false_iff.mp (unbound_parted hc hc' (hS.mono fun _ _ h => h.dotted) (Bool.eq_false_iff.mpr hs))

theorem typeRule_replay : Replays (k + 1) (fun _ _ => True) g.typeRule (fun _ => g'.typeRule)
    (fun _ => Front calm) c := by
  have htake : ∀ c : Cursor, c.Reached → Takes g.constraintRule c := fun c hc =>
    .of_spec hc (constraintRule_spec hg.pairs.reliable hc.sound) fun _ _ h => h.lt
  have hround : ∀ {A B}, Resumes.Round (·.has .operator "&") (Front calm) A B → Linked A B := by
    rintro A B (⟨hA, hB⟩ | ⟨-, -, hB⟩)
    · have hlead := lead_of_ampersand hA
      exact .inr ⟨hlead, hB.lead.trans hlead⟩
    · exact .inl hB
  refine .current_bind (q := fun o' => g'.constraintRule >>= fun first =>
    Parser.collectWhile (fun c => c.peek.has .operator "&") (skip 1 >>= fun _ => g'.constraintRule) >>=
      fun others => if others.isEmpty then pure first else sliceFrom o'.peek >>= fun x =>
        pure (TypeTree.composition (first :: others) x)) (fun o' c' hQ _ => by rw [hQ.1])
    (Replays.bind (htake c hc) hc (constraintRule_replay hg hc) fun first c₁ _ hc₁ => Resumes.bind hc₁
      (Follows.pre (Resumes.collectWhile (G := Front calm) told_ampersand (fun c₂ hc₂ hm => ?_) hc₁
        (fun A B hB => ?_) fun c₂ hc₂ hm => ?_) fun Y hY => hround hY) fun others c₂ _ hc₂ => ?_)
  · exact .after hc₂ (.skip hc₂ (Token.not_bracket_of_has hm (by decide))) fun _ c₃ hc₃ => htake c₃ hc₃
  · have hcalm : ∀ w ∈ calm, (Token.ofWord w).has .operator "&" = false := by decide
    exact hcalm _ hB
  · have hw := Token.whole_of_has hm (by simp) (by simp [Token.isMarkChar])
    refine Follows.pre (Resumes.skip_bind (S := fun _ _ => True) hc₂ hw fun hc₃ => Follows.post
      (Resumes.of_replays ((constraintRule_replay hg hc₃).le k.le_succ)) fun _ _ _ h => hround h)
      fun _ _ => trivial
  · by_cases he : others.isEmpty = true
    · simp only [if_pos he]
      exact Resumes.pure (E := fun _ => Front calm) hc₂
    · simp only [if_neg he]
      exact Resumes.keep (E := fun _ => Front calm) (f := fun x => TypeTree.composition (first :: others) x) hc₂

end Constraints

theorem upTo_sated (n : Nat) : (upTo n).Sated := by
  induction n with
  | zero => exact ⟨fun _ _ _ _ h => (by cases h), fun _ _ _ _ h => (by cases h)⟩
  | succ n ih =>
    exact ⟨fun _ hc _ _ h => typeRule_sated (upTo_pairs n) ih hc h,
      fun _ hc _ _ h => constraintRule_sated (upTo_pairs n) ih hc h⟩

/-- Grammars of any two levels answer alike, for types of fewer grains than the second has levels. -/
theorem upTo_echoes (m n : Nat) : (upTo m).Echoes (upTo n) n := by
  induction n generalizing m with
  | zero =>
    refine ⟨upTo_pairs m, upTo_pairs 0, upTo_sated m, fun c hc T c₁ h => ?_, fun c hc T c₁ h => ?_⟩
    · exact ⟨((upTo_pairs m).type c hc T c₁ h).leads, fun _ _ _ _ _ => ⟨fun _ _ => trivial,
        fun hk => absurd hk (Nat.not_lt_zero _)⟩⟩
    · exact ⟨((upTo_pairs m).constraint c hc T c₁ h).leads, fun _ _ _ _ _ => ⟨fun _ _ => trivial,
        fun hk => absurd hk (Nat.not_lt_zero _)⟩⟩
  | succ n ih =>
    refine ⟨upTo_pairs m, upTo_pairs (n + 1), upTo_sated m, fun c hc => ?_, fun c hc => ?_⟩
    all_goals
      cases m with
      | zero => exact fun _ _ h => by cases h
      | succ m => first | exact typeRule_replay (ih m) hc | exact constraintRule_replay (ih m) hc

/-- A type is read alike where its grains are, in front of anything that belongs to no type. -/
theorem type_answers {m n : Nat} {T : TypeTree} {c c₁ : Cursor} (hc : c.Reached)
    (h : (upTo m).typeRule c = .ok T c₁) {W W' Y : List Grain} (hW : c.grains = W ++ c₁.grains)
    (hnone : Grain.Unbraced W) (halike : Grain.Alike W W') (hn : W.length ≤ n) {c' : Cursor} (hc' : c'.Braceless)
    (hY : c'.grains = W' ++ Y) (hcalm : Grain.lead Y ∈ calm) : Answers (upTo n).typeRule c' T Y :=
  ((typeRule_replay (upTo_echoes m n) hc T c₁ h).2 W hW hnone W' halike).2 (Nat.lt_succ_of_le hn) c' c' Y
    ⟨rfl, hc'⟩ hY hcalm

end Grammar

end SwiftMacros
