import Mathlib
import SwiftMacros.Proofs.Grammar.Expression
import SwiftMacros.Grammar.Closed
import SwiftMacros.Setter.Property

/-! Declarations keep where their attributes and their member block stand. The properties that the
members declare have names that are read as such and types that are legible. All this holds of the
grammar tied up, with as many levels as it is given. -/

namespace SwiftMacros

open Token (LegibleIn IsName Placed isMarkChar)
open SwiftMacros.Parser

/-- A name that has a carriage return only if the source has one. -/
def Token.IsNameIn (s n : Text) : Prop := IsName n ∧ ('\r' ∉ s → '\r' ∉ n)

structure Property.Readable (s : Text) (p : Property) : Prop where
  name : Token.IsNameIn s p.name
  type : ∀ T ∈ p.type, LegibleIn s T.signature
  initializer : ∀ e ∈ p.initializer, LegibleIn s e.signature

structure Binding.Readable (s : Text) (b : Binding) : Prop where
  name : ∀ n ∈ b.name, Token.IsNameIn s n
  type : ∀ T ∈ b.type, LegibleIn s T.signature
  initializer : ∀ e ∈ b.initializer, LegibleIn s e.signature

def Member.Readable (s : Text) (m : Member) : Prop := ∀ p ∈ m.properties, p.Readable s

/-- The braces of a member block stand where it says, and the source is cut inside of both. -/
structure MemberBlock.Spans (b : MemberBlock) (s : Text) : Prop where
  lt : b.start + 1 < b.stop
  le : b.stop ≤ s.length
  opening : s[b.start]? = some '\x7b'
  closing : s[b.stop - 1]? = some '\x7d'
  cut_start : Cut s b.start
  cut_opening : Cut s (b.start + 1)
  cut_closing : Cut s (b.stop - 1)
  members : ∀ m ∈ b.members, m.Readable s

/-- A declaration starts at the token at the cursor. Its attributes are cut out of the source in
front of the member block, which it ends with. -/
structure Group.Spans (g : Group) (c c' : Cursor) : Prop where
  start : g.start = c.peek.start
  stop : g.stop = g.block.stop
  block : g.block.Spans c'.source
  le : c.peek.start ≤ g.block.start
  first : ∀ a ∈ g.attributes.head?, c.peek.kind = .atName ∧ a.start = c.peek.start
  lt : ∀ a ∈ g.attributes, a.start < a.stop
  before : ∀ a ∈ g.attributes, a.stop ≤ g.block.start
  cut_start : ∀ a ∈ g.attributes, Cut c'.source a.start
  cut_stop : ∀ a ∈ g.attributes, Cut c'.source a.stop
  next : ∀ a ∈ g.attributes, Introduces c'.source a.stop

theorem Binding.Readable.property {s : Text} {v : Variable} {b : Binding} (h : b.Readable s)
    {p : Property} (hp : Property.ofBinding? v b = some p) : p.Readable s := by
  obtain ⟨name, hname, rfl⟩ := Option.map_eq_some_iff.mp hp
  exact ⟨h.name name hname, h.type, h.initializer⟩

namespace Grammar

variable {g : Grammar} {c c' : Cursor}

/-- A binding that could not be read is kept as its source. -/
theorem orRest_spec {α : Type} {P : α → Prop} {p : Parser α} {raw : Text → α} (hs : c.Sound)
    (hb : c.behind ≠ []) (hcut : c.peek.kind ≠ .eof → Cut c.source c.peek.start)
    (hp : Spec p c fun a _ => P a) (hraw : ∀ t, LegibleIn c.source (Text.trim t) → P (raw t)) :
    Spec (orRest p raw) c fun a _ => P a := by
  refine Spec.current_bind (Spec.bind (Spec.attempt hp) fun o c₁ hl₁ ho => ?_)
  cases o with
  | some a => exact Spec.pure hl₁.sound (ho.1 a rfl)
  | none =>
    refine Spec.get_bind (Spec.skip_bind hl₁.sound (Spec.sliceFrom_bind ?_))
    have hl := hl₁.trans (hl₁.sound.advance (bindingLength 0 c₁.ahead))
    generalize c₁.advance (bindingLength 0 c₁.ahead) = c₂ at hl
    refine Spec.pure hl.sound (hraw _ ?_)
    rcases Nat.lt_or_ge c.peek.start c₂.edge with hlt | hge
    · rw [Cursor.sliceFrom_eq rfl hlt, hl.trim_upTo hlt hs]
      exact hl.legibleIn_upTo hlt (hl.cut (hcut (hl.peek_ne_eof hlt hs)))
    · obtain ⟨taken, htaken⟩ := hl.behind
      have hne : c₂.behind ≠ [] := by simp [← htaken, hb]
      rw [Cursor.sliceFrom, Cursor.previous_stop hne, Text.slice, Nat.sub_eq_zero_of_le hge]
      exact ⟨.nil, fun _ => List.not_mem_nil⟩

section Members

variable (hg : g.Reliable) (hs : c.Sound)
include hg hs

theorem bindingRule_spec : Spec g.bindingRule c fun b _ => b.Readable c.source := by
  refine Spec.current_bind ?_
  extract_lets jp
  have hjp : ∀ name c₁, c.Leads c₁ → (∀ n ∈ name, Token.IsNameIn c.source n) →
      Spec (jp name) c₁ fun b _ => b.Readable c.source := by
    intro name c₁ hl₁ hname
    refine Spec.sliceFrom_bind (Spec.current_bind ?_)
    extract_lets jp
    have hjp : ∀ (type : Option TypeTree) c₂, c₁.Leads c₂ →
        (∀ T ∈ type, LegibleIn c.source T.signature) →
        Spec (jp type) c₂ fun b _ => b.Readable c.source := by
      intro type c₂ hl₂ htype
      refine Spec.current_bind ?_
      extract_lets jp
      have hjp : ∀ (initializer : Option Expression) c₃, c₂.Leads c₃ →
          (∀ e ∈ initializer, LegibleIn c.source e.signature) →
          Spec (jp initializer) c₃ fun b _ => b.Readable c.source := by
        intro initializer c₃ hl₃ hinitializer
        refine Spec.current_bind (Spec.ite (fun _ => ?_) fun _ => ?_)
        · refine Spec.bind (Spec.skipBalanced hl₃.sound) fun _ c₄ hl₄ _ => Spec.sliceFrom_bind ?_
          exact Spec.pure_bind (Spec.sliceFrom_bind (Spec.pure hl₄.sound ⟨hname, htype, hinitializer⟩))
        · exact Spec.pure_bind (Spec.sliceFrom_bind
            (Spec.pure hl₃.sound ⟨hname, htype, hinitializer⟩))
      refine Spec.ite (fun heq => ?_) fun _ => Spec.pure_bind (hjp none c₂ hl₂.sound.refl (by simp))
      have hk := Token.kind_of_has heq
      have hs₃ := (hl₂.sound.advance 1).sound
      have hbehind := hl₂.sound.behind_advance (by simp [hk])
      have htext : c₂.peek.text = ['='] := by
        simp only [Token.has, Bool.and_eq_true, beq_iff_eq] at heq
        exact heq.2
      have hcut : (c₂.advance 1).peek.kind ≠ .eof → Cut (c₂.advance 1).source
          (c₂.advance 1).peek.start := by
        refine hs₃.cut_peek_behind (t := c₂.peek) (by simp [hbehind]) fun m hm ht => ?_
        rw [htext, List.cons.injEq] at ht
        rw [← ht.1] at hm
        cases hm
      refine Spec.skip_bind hl₂.sound (Spec.bind (orRest_spec
        (P := fun e => LegibleIn (c₂.advance 1).source e.signature) hs₃
        (by simp [hbehind]) hcut ?_ fun t ht => ht) fun e c₃ hl₃ he => Spec.pure_bind ?_)
      · exact (hg.expression _ hs₃).mono fun _ _ hl h =>
          h.legible (hl.cut (hcut (hl.peek_ne_eof h.lt hs₃)))
      · rw [((hl₁.trans hl₂).trans (hl₂.sound.advance 1)).source] at he
        exact hjp (some e) c₃ ((hl₂.sound.advance 1).trans hl₃) (by simpa using he)
    refine Spec.ite (fun hcolon => ?_) fun _ => Spec.pure_bind (hjp none c₁ hl₁.sound.refl (by simp))
    have hk := Token.kind_of_isSymbol hcolon
    have hs₂ := (hl₁.sound.advance 1).sound
    refine Spec.skip_bind hl₁.sound (Spec.bind (orRest_spec
      (P := fun T => LegibleIn (c₁.advance 1).source T.signature) hs₂
      (by simp [hl₁.sound.behind_advance (by simp [hk])])
      (hs₂.cut_peek (.inr (hl₁.sound.blunt_advance (by simp [hk]) (by simp [hk])))) ?_
      fun t ht => ht) fun T c₂ hl₂ hT => Spec.pure_bind ?_)
    · exact (hg.type _ hs₂).mono fun _ _ _ h => h.legible
    · rw [(hl₁.trans (hl₁.sound.advance 1)).source] at hT
      exact hjp (some T) c₂ ((hl₁.sound.advance 1).trans hl₂) (by simpa using hT)
  refine Spec.ite (fun hk => ?_) fun _ => Spec.ite (fun _ => ?_) fun _ => ?_
  · have hk : c.peek.kind = .identifier := by simpa using hk
    refine Spec.consume_bind hs (Spec.pure_bind (hjp _ _ (hs.advance 1) ?_))
    have hplaced := hs.placed_peek (by simp [hk])
    simpa using ⟨hplaced.isName hk, hplaced.not_mem_text⟩
  · exact Spec.bind (Spec.skipBalanced hs) fun _ c₁ hl₁ _ => Spec.pure_bind (hjp none c₁ hl₁ (by simp))
  · exact Spec.bind (Spec.fail hs) (Q := fun _ _ => False) fun _ _ _ h => h.elim

theorem memberBody_spec {start : Token} {as : List Attribute} {ms : List Modifier} :
    Spec (g.memberBody start as ms) c fun m _ => m.Readable c.source := by
  refine Spec.current_bind (Spec.ite (fun _ => ?_) fun _ => ?_)
  · have hs₁ := (hs.advance 1).sound
    refine Spec.skip_bind hs (Spec.bind (Spec.separated
      (I := fun (bs : List Binding) _ => ∀ b ∈ bs, b.Readable c.source) ?_ ?_)
      fun bs c₁ hl₁ hbs => ?_)
    · rw [← (hs.advance 1).source]
      exact (bindingRule_spec hg hs₁).mono fun _ _ _ h => by simpa using h
    · intro bs c₁ hl₁ hbs _
      exact (bindingRule_spec hg (hl₁.sound.advance 1).sound).mono fun b _ _ hb => by
        rw [((hs.advance 1).trans (hl₁.trans (hl₁.sound.advance 1))).source] at hb
        simpa [or_imp, forall_and] using ⟨hbs, hb⟩
    · refine Spec.sliceFrom_bind (Spec.pure hl₁.sound fun p hp => ?_)
      obtain ⟨b, hb, hp⟩ := List.mem_filterMap.mp hp
      exact (hbs b hb).property hp
  · refine Spec.get_bind (Spec.skip_bind hs (Spec.get_bind (Spec.pure (hs.advance _).sound ?_)))
    simp [Member.Readable, Member.properties]

theorem modifiersRule_spec : Spec g.modifiersRule c fun _ c' =>
    c' = c ∨ c.peek.isIdentifierIn modifierWords = true := by
  refine (Spec.collectWhile (I := fun _ c' => c' = c ∨ c.peek.isIdentifierIn modifierWords = true)
    (fun _ c₁ hl₁ hi hm => ?_) hs (.inl rfl)).mono fun _ _ _ h => h.1
  have hfirst : c.peek.isIdentifierIn modifierWords = true := by
    rcases hi with rfl | hk
    · simp only [modifierFollows, Bool.and_eq_true] at hm
      exact hm.1
    · exact hk
  have hs₂ := (hl₁.sound.advance 1).sound
  refine Spec.consume_bind hl₁.sound ?_
  extract_lets jp
  have hjp : ∀ detail c₂, c₂.Sound →
      Spec (jp detail) c₂ fun _ c' => c' = c ∨ c.peek.isIdentifierIn modifierWords = true := by
    intro detail c₂ hs₂
    refine Spec.sliceFrom_bind (Spec.bind (attributesRule_spec hg hs₂) fun _ c₃ hl₃ _ => ?_)
    exact Spec.pure hl₃.sound (.inr hfirst)
  refine Spec.get_bind (Spec.ite (fun _ => ?_) fun _ => Spec.pure_bind (hjp none _ hs₂))
  have hs₄ := ((hs₂.advance 1).sound.advance 1).sound
  refine Spec.skip_bind hs₂ (Spec.consume_bind (hs₂.advance 1).sound ?_)
  exact Spec.expect_bind hs₄ fun _ => Spec.pure_bind (hjp _ _ (hs₄.advance 1).sound)

theorem memberRule_spec : Spec g.memberRule c fun m _ => m.Readable c.source := by
  refine Spec.current_bind (Spec.bind (attributesRule_spec hg hs) fun as c₁ hl₁ _ => ?_)
  refine Spec.bind (modifiersRule_spec hg hl₁.sound) fun ms c₂ hl₂ _ => ?_
  exact (hl₁.trans hl₂).source ▸ memberBody_spec hg hl₂.sound

theorem memberBlockRule_spec : Spec g.memberBlockRule c fun b c' =>
    b.Spans c'.source ∧ b.start = c.peek.start := by
  refine Spec.expect_bind hs fun hopening => ?_
  have hk := hs.kind_of_reads (m := '\x7b') rfl hopening
  have heof : c.peek.kind ≠ .eof := by simp [hk]
  have hs₁ := (hs.advance 1).sound
  refine Spec.bind (Spec.collect (I := fun (mss : List (List Member)) _ =>
      ∀ ms ∈ mss, ∀ m ∈ ms, m.Readable c.source)
      (Q := fun mss _ => ∀ ms ∈ mss, ∀ m ∈ ms, m.Readable c.source)
      (fun mss c₁ hl₁ hi => Spec.get_bind ?_) hs₁ (by simp)) fun mss c₁ hl₁ hmss => ?_
  · refine Spec.ite (fun _ => Spec.pure hl₁.sound ⟨by simp, fun _ => hi⟩) fun _ =>
      Spec.ite (fun _ => Spec.fail hl₁.sound) fun _ => Spec.ite (fun _ => ?_) fun _ => ?_
    · refine Spec.skip_bind hl₁.sound (Spec.pure (hl₁.sound.advance 1).sound ⟨?_, by simp⟩)
      rintro _ ⟨rfl⟩
      simpa [or_imp, forall_and] using hi
    · refine Spec.bind (memberRule_spec hg hl₁.sound) fun m c₂ hl₂ hm => Spec.get_bind ?_
      have hsome : ∀ ms, some [m] = some ms → ∀ ns ∈ mss ++ [ms], ∀ n ∈ ns, n.Readable c.source := by
        rintro _ ⟨rfl⟩
        rw [((hs.advance 1).trans hl₁).source] at hm
        simpa [or_imp, forall_and] using ⟨hi, hm⟩
      refine Spec.ite (fun _ => ?_) fun _ => Spec.pure hl₂.sound ⟨hsome, by simp⟩
      exact Spec.skip_bind hl₂.sound (Spec.pure (hl₂.sound.advance 1).sound ⟨hsome, by simp⟩)
  · refine Spec.expect_bind hl₁.sound fun hclosing => Spec.sliceFrom_bind ?_
    have hk₁ := hl₁.sound.kind_of_reads (m := '\x7d') rfl hclosing
    have heof₁ : c₁.peek.kind ≠ .eof := by simp [hk₁]
    have hl := hl₁.trans (hl₁.sound.advance 1)
    have hmark : ∀ {t : Token} {m : Char}, Placed c.source t → t.reads [m] = true →
        t.stop = t.start + 1 ∧ c.source[t.start]? = some m := by
      intro t m ht hr
      simp only [Token.reads, Bool.and_eq_true, beq_iff_eq] at hr
      have hlen := ht.length
      have hdrop := ht.drop_eq
      have hlt := ht.lt
      rw [hr.1.1, List.length_singleton] at hlen
      refine ⟨by omega, ?_⟩
      rw [← List.head?_drop, hdrop, hr.1.1]
      rfl
    have hp := hs.placed_peek heof
    have hp₁ := hl₁.sound.placed_peek heof₁
    rw [hl₁.source] at hp₁
    obtain ⟨hstop, hchar⟩ := hmark hp hopening
    obtain ⟨hstop₁, hchar₁⟩ := hmark hp₁ hclosing
    have hedge := hl₁.edge_le.trans hl₁.sound.edge_le_peek
    rw [hs.edge_advance heof] at hedge
    have hcut := hs.cut_peek (.inl (by simp [hk])) heof
    have hcut₁ := hl₁.sound.cut_peek (.inl (by simp [hk₁])) heof₁
    rw [hl₁.source] at hcut₁
    have hclose : c₁.peek.stop - 1 = c₁.peek.start := by omega
    refine Spec.pure hl.sound ⟨⟨by simp only; omega, hl.source ▸ hp₁.le, ?_, ?_, ?_, ?_, ?_,
      by simpa [((hs.advance 1).trans hl).source] using fun m ms h hm => hmss ms h m hm⟩, rfl⟩
    · exact hl.source ▸ hchar
    · exact hl.source ▸ hclose ▸ hchar₁
    · exact hl.cut hcut
    · exact hl.cut (hstop ▸ hp.cut_stop (by simp [hk]))
    · exact hl.cut (hclose ▸ hcut₁)

omit hg in
theorem groupHeader_spec {name : Text} : Spec (groupHeader name) c fun _ _ => True := by
  refine Spec.extend (I := fun _ _ => True) (fun _ c₁ hl₁ _ => Spec.get_bind ?_) hs trivial
  have hs₁ := hl₁.sound
  refine Spec.ite (fun _ => Spec.pure hs₁ (by simp)) fun _ => Spec.ite (fun _ => Spec.fail hs₁)
    fun _ => Spec.ite (fun _ => ?_) fun _ => ?_
  · exact Spec.bind (Spec.skipBalanced hs₁) fun _ c₂ hl₂ _ => Spec.pure hl₂.sound (by simp)
  · exact Spec.skip_bind hs₁ (Spec.pure (hs₁.advance 1).sound (by simp))

theorem groupBody_spec {start : Token} {as : List Attribute} {ms : List Modifier} :
    Spec (g.groupBody start as ms) c fun d c' => d.attributes = as ∧ d.start = start.start ∧
      d.stop = d.block.stop ∧ c.peek.start ≤ d.block.start ∧ d.block.Spans c'.source := by
  have hs₁ := (hs.advance 1).sound
  refine Spec.consume_bind hs (Spec.current_bind ?_)
  extract_lets jp
  refine Spec.ite (fun _ => Spec.bind (Spec.fail hs₁) (Q := fun _ _ => False)
    fun _ _ _ h => h.elim) fun _ => Spec.consume_bind hs₁ ?_
  refine Spec.bind (groupHeader_spec (hs₁.advance 1).sound) fun _ c₁ hl₁ _ => ?_
  refine Spec.bind (memberBlockRule_spec hg hl₁.sound) fun b c₂ hl₂ ⟨hb, hstart⟩ => ?_
  refine Spec.sliceFrom_bind (Spec.pure hl₂.sound ⟨rfl, rfl, rfl, ?_, hb⟩)
  have := (((hs.advance 1).trans (hs₁.advance 1)).trans hl₁).peek_le hs
  simp only [hstart]
  exact this

omit hg hs in
theorem isIdentifierIn_of_subset {t : Token} {ws vs : List String} (h : ws ⊆ vs)
    (ht : t.isIdentifierIn ws = true) : t.isIdentifierIn vs = true := by
  simp only [Token.isIdentifierIn, Bool.and_eq_true, List.any_eq_true] at ht ⊢
  exact ⟨ht.1, ht.2.imp fun w hw => ⟨h hw.1, hw.2⟩⟩

/-- The attributes of a declaration end before its member block. -/
theorem declarationRule_spec : Spec g.declarationRule c fun d c' =>
    ∀ t, d = .group t → t.Spans c c' := by
  refine Spec.current_bind (Spec.bind (attributesRule_spec hg hs) fun as c₁ hl₁ has => ?_)
  refine Spec.bind (modifiersRule_spec hg hl₁.sound) fun ms c₂ hl₂ hms => Spec.current_bind ?_
  refine Spec.ite (fun hk => ?_) fun _ => ?_
  · have hopening : c₁.peek.isIdentifierIn openingWords = true := by
      rcases hms with rfl | h
      · exact isIdentifierIn_of_subset (List.subset_append_right _ _) hk
      · exact isIdentifierIn_of_subset (List.subset_append_left _ _) h
    have hfirst := Token.kind_of_isIdentifierIn hopening
    obtain ⟨hcut₁, -⟩ := hl₁.sound.cut_edge (.inl (by simp [hfirst])) (by simp [hfirst])
    have hnext : Introduces c₁.source c₁.edge := by
      refine hl₁.sound.introduces (by simp [hfirst]) (by simp [hfirst]) (.inr ?_)
      simpa [Token.isIdentifierIn, hfirst] using hopening
    refine Spec.bind (groupBody_spec hg hl₂.sound) fun t c₃ hl₃ hbody => ?_
    obtain ⟨ha, hstart, hstop, hle, hb⟩ := hbody
    refine Spec.pure hl₃.sound ?_
    rintro _ ⟨rfl⟩
    have hl := hl₂.trans hl₃
    have hpeek := hl₂.peek_le hl₁.sound
    have hedge := hl₁.sound.edge_le_peek
    refine ⟨hstart, hstop, hb, ?_, ?_, ?_, ?_, ?_, ?_, ?_⟩
    · exact ((hl₁.trans hl₂).peek_le hs).trans hle
    · exact ha ▸ has.first
    · exact ha ▸ has.lt
    · exact fun a hmem => (has.le a (ha ▸ hmem)).trans (hedge.trans (hpeek.trans hle))
    · exact fun a hmem => hl.cut (has.cut_start a (ha ▸ hmem))
    · intro a hmem
      rcases has.cut_stop a (ha ▸ hmem) with h | h
      · exact hl.cut h
      · exact hl.cut (h ▸ hcut₁)
    · intro a hmem
      rw [hl.source]
      exact (has.next a (ha ▸ hmem)).elim id fun h => h ▸ hnext
  · refine Spec.bind (memberBody_spec hg hl₂.sound) fun m c₃ hl₃ _ => Spec.pure hl₃.sound ?_
    rintro _ ⟨⟩

end Members

end Grammar

/-- The grammar of any number of levels is reliable: a level reads nested parts with the one below, and
the lowest answers with an error. -/
theorem Grammar.upTo_reliable (n : Nat) : (Grammar.upTo n).Reliable := by
  induction n with
  | zero => exact ⟨fun _ h => .stall h, fun _ h => .stall h, fun _ h => .stall h, fun _ h => .stall h⟩
  | succ n ih =>
    exact ⟨fun _ h => Grammar.typeRule_spec ih h, fun _ h => Grammar.constraintRule_spec ih h,
      fun _ h => Grammar.expressionRule_spec ih h, fun _ h => Grammar.operandRule_spec ih h⟩

namespace Parser

variable {c : Cursor}

theorem withGrammar_spec {α : Type} {rule : Grammar → Parser α} {Q : α → Cursor → Prop}
    (h : ∀ g : Grammar, g.Reliable → Spec (rule g) c Q) : Spec (withGrammar rule) c Q :=
  Spec.get_bind (h _ (Grammar.upTo_reliable _))

theorem declaration_spec (hs : c.Sound) : Spec declaration c fun d c' =>
    ∀ t, d = .group t → t.Spans c c' :=
  withGrammar_spec fun _ hg => Grammar.declarationRule_spec hg hs

theorem expansion_spec (hs : c.Sound) : Spec expansion c (ReadsExpansion c) :=
  withGrammar_spec fun _ hg => Grammar.expansionRule_spec hg hs

end Parser

end SwiftMacros
