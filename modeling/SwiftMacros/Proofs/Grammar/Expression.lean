import Mathlib
import SwiftMacros.Proofs.Grammar.Closure
import SwiftMacros.Grammar.Expression

/-! Expressions keep the source that they were read from. What an initializer tells of its type is
legible: literals and collections by the shape of their signature, anything else by its source. -/

namespace SwiftMacros

open Token (LegibleIn isMarkChar)
open SwiftMacros.Parser

namespace ReadsExpression

variable {c c' : Cursor} {e : Expression}

/-- An expression that stands for itself as a signature. -/
theorem of_text (hs : c.Sound) (hl : c.Leads c') (hlt : c.peek.start < c'.edge)
    (ht : e.toText = c.upTo c') (hsig : e.signature = Text.trim e.toText)
    (hop : ∀ T t, e ≠ .typeOperand T t) : ReadsExpression c e c' :=
  ⟨hlt, ht, fun hcut => by
    rw [hsig, ht, hl.trim_upTo hlt hs]
    exact hl.legibleIn_upTo hlt hcut, fun T t h => absurd h (hop T t)⟩

/-- The source of an expression, as a signature. -/
theorem legible_text (h : ReadsExpression c e c') (hs : c.Sound) (hl : c.Leads c')
    (hcut : Cut c'.source c.peek.start) : LegibleIn c.source (Text.trim e.toText) := by
  rw [h.text, hl.trim_upTo h.lt hs]
  exact hl.legibleIn_upTo h.lt hcut

/-- An expression that is one token. -/
theorem of_token (hs : c.Sound) (he : c.peek.kind ≠ .eof) (ht : e.toText = c.peek.text)
    (hleg : LegibleIn c.source e.signature) (hop : ∀ T t, e ≠ .typeOperand T t) :
    ReadsExpression c e (c.advance 1) := by
  refine ⟨hs.edge_advance he ▸ (hs.placed_peek he).lt, ?_, fun _ => hleg,
    fun T t h => absurd h (hop T t)⟩
  rw [ht, hs.upTo_advance he]

end ReadsExpression

namespace Signature

theorem common?_mem {ts : List Text} {t : Text} (h : common? ts = some t) : t ∈ ts := by
  cases ts with
  | nil => cases h
  | cons u ts =>
    rw [common?, Option.ite_none_right_eq_some] at h
    simpa using .inl (Option.some.inj h.2.symm)

/-- What all members share is legible if they are. -/
theorem legible_common? {s : Text} {l : List Text} {u : Text} (h : ∀ t ∈ l, LegibleIn s t)
    (hu : LegibleIn s u) : LegibleIn s ((common? l).getD u) := by
  cases hc : common? l with
  | none => exact hu
  | some t => exact h t (common?_mem hc)

/-- The type behind a cast is one of the operands. -/
theorem exists_castType? {l : List Expression} {T : TypeTree} (h : T ∈ castType? l) :
    ∃ t, Expression.typeOperand T t ∈ l := by
  fun_induction castType? l with
  | case1 m text T t es =>
    obtain rfl := Option.some.inj h
    exact ⟨t, by simp⟩
  | case2 e es _ ih => exact (ih h).imp fun t ht => .tail _ ht
  | case3 => cases h

theorem legible_castType? {s : Text} {l : List Expression}
    (h : ∀ T t, Expression.typeOperand T t ∈ l → LegibleIn s T.signature) :
    ∀ T ∈ castType? l, LegibleIn s T.signature := fun T hT =>
  have ⟨t, ht⟩ := exists_castType? hT
  h T t ht

end Signature

theorem legible_signatures {s : Text} {es : List Expression}
    (h : ∀ e ∈ es, LegibleIn s e.signature) : ∀ t ∈ signatures es, LegibleIn s t := by
  induction es with
  | nil => simp [signatures]
  | cons e es ih =>
    obtain ⟨he, hes⟩ := List.forall_mem_cons.mp h
    simpa [signatures] using ⟨he, ih hes⟩

theorem legible_entrySignatures {s : Text} {es : List Entry}
    (h : ∀ e ∈ es, LegibleIn s e.key.signature ∧ LegibleIn s e.value.signature) :
    ∀ p ∈ entrySignatures es, LegibleIn s p.1 ∧ LegibleIn s p.2 := by
  induction es with
  | nil => simp [entrySignatures]
  | cons e es ih =>
    obtain ⟨he, hes⟩ := List.forall_mem_cons.mp h
    obtain ⟨key, value, text⟩ := e
    intro p hp
    rcases List.mem_cons.mp hp with rfl | hp
    · exact he
    · exact ih hes p hp

namespace Grammar

variable {g : Grammar} {c c' : Cursor}

section Words

variable (hs : c.Sound)
include hs

theorem controlExpression_spec (he : c.peek.kind ≠ .eof) :
    Spec controlExpression c (ReadsExpression c) := by
  refine Spec.consume_bind hs (Spec.bind (Q := fun _ _ => True) ?_ fun _ c₁ hl₁ _ => ?_)
  · refine Spec.extend (I := fun _ _ => True) (fun _ c₁ hl₁ _ => Spec.get_bind ?_)
      (hs.advance 1).sound trivial
    have hs₁ := hl₁.sound
    refine Spec.ite (fun _ => ?_) fun _ => Spec.ite (fun _ => ?_) fun _ => Spec.ite (fun _ => ?_)
      fun _ => ?_
    · refine Spec.bind (Spec.skipBalanced hs₁) fun _ c₂ hl₂ _ => Spec.current_bind ?_
      refine Spec.ite (fun _ => ?_) fun _ => Spec.pure hl₂.sound (by simp)
      exact Spec.skip_bind hl₂.sound (Spec.pure (hl₂.sound.advance 1).sound (by simp))
    · exact Spec.fail hs₁
    · exact Spec.bind (Spec.skipBalanced hs₁) fun _ c₂ hl₂ _ => Spec.pure hl₂.sound (by simp)
    · exact Spec.skip_bind hs₁ (Spec.pure (hs₁.advance 1).sound (by simp))
  · have hlt := hs.peek_lt he hl₁
    exact Spec.sliceFrom_bind (Spec.pure hl₁.sound (.of_text hs ((hs.advance 1).trans hl₁) hlt
      (Cursor.sliceFrom_eq rfl hlt) rfl (by simp)))

theorem keyPath_spec (he : c.peek.kind ≠ .eof) : Spec keyPath c (ReadsExpression c) := by
  refine Spec.consume_bind hs (Spec.bind (Q := fun _ _ => True) ?_ fun _ c₁ hl₁ _ => ?_)
  · refine Spec.extend (I := fun _ _ => True) (fun _ c₁ hl₁ _ => Spec.current_bind ?_)
      (hs.advance 1).sound trivial
    have hs₁ := hl₁.sound
    refine Spec.ite (fun _ => Spec.pure hs₁ (by simp)) fun _ => Spec.ite (fun _ => ?_) fun _ =>
      Spec.ite (fun hm => ?_) fun _ => Spec.ite (fun _ => ?_) fun _ => Spec.pure hs₁ (by simp)
    · exact Spec.skip_bind hs₁ (Spec.pure (hs₁.advance 1).sound (by simp))
    · obtain ⟨hk, m, hm, hmark⟩ := Token.mark_of_isMark hm
      exact Spec.consumePart_bind hs₁ hk hm hmark fun _ c₂ hl₂ _ _ _ _ _ =>
        Spec.pure hl₂.sound (by simp)
    · exact Spec.bind (Spec.skipBalanced hs₁) fun _ c₂ hl₂ _ => Spec.pure hl₂.sound (by simp)
  · have hlt := hs.peek_lt he hl₁
    have hsig : LegibleIn c.source Signature.keyPathSentinel :=
      .of_words (w := [(.identifier, "KeyPath".toList)]) (by decide) (by decide) (by decide)
    exact Spec.sliceFrom_bind (Spec.pure hl₁.sound ⟨hlt, Cursor.sliceFrom_eq rfl hlt,
      fun _ => hsig, by simp⟩)

theorem otherItems_spec {α : Type} {P : α → Prop} {item : Parser α}
    (hitem : ∀ c', c.Leads c' → c'.Blunt → Spec item c' fun a _ => P a) :
    Spec (otherItems item) c fun as _ => ∀ a ∈ as, P a := by
  refine Spec.collect (I := fun as _ => ∀ a ∈ as, P a) (fun as c₁ hl₁ hi => ?_) hs (by simp)
  refine Spec.current_bind (Spec.ite (fun hcomma => ?_) fun _ => Spec.pure hl₁.sound
    ⟨by simp, fun _ => hi⟩)
  have hk := Token.kind_of_isSymbol hcomma
  have hl₂ := hl₁.sound.advance 1
  refine Spec.skip_bind hl₁.sound (Spec.current_bind (Spec.ite (fun _ => ?_) fun _ => ?_))
  · exact Spec.pure hl₂.sound ⟨by simp, fun _ => hi⟩
  · refine Spec.bind (hitem _ (hl₁.trans hl₂)
      (hl₁.sound.blunt_advance (by simp [hk]) (by simp [hk]))) fun a c₃ hl₃ ha => ?_
    refine Spec.pure hl₃.sound ⟨?_, by simp⟩
    rintro _ ⟨rfl⟩
    simpa [or_imp, forall_and] using ⟨hi, ha⟩

end Words

section Literals

variable (hg : g.Reliable) (hs : c.Sound)
include hg hs

/-- An expression behind a symbol tells a legible signature. -/
theorem Reliable.legible {s : Text} (hb : c.Blunt) (hsource : c.source = s) :
    Spec g.expression c fun e _ => LegibleIn s e.signature :=
  (hg.expression c hs).mono fun _ _ hl he =>
    hsource ▸ he.legible (hl.cut (hs.cut_peek (.inr hb) (hl.peek_ne_eof he.lt hs)))

theorem collectionLiteral_spec (hk : c.peek.isSymbol "[" = true) :
    Spec g.collectionLiteral c (ReadsExpression c) := by
  have hsymbol := Token.kind_of_isSymbol hk
  have heof : c.peek.kind ≠ .eof := by simp [hsymbol]
  have hl₁ := hs.advance 1
  have hs₁ := hl₁.sound
  have hany : LegibleIn c.source "Any".toList :=
    .of_words (w := [(.identifier, "Any".toList)]) (by decide) (by decide) (by decide)
  have hhashable : LegibleIn c.source "AnyHashable".toList :=
    .of_words (w := [(.identifier, "AnyHashable".toList)]) (by decide) (by decide) (by decide)
  have hdictionary : ∀ entries text c₂, (c.advance 1).Leads c₂ →
      (∀ e ∈ entries, LegibleIn c.source e.key.signature ∧ LegibleIn c.source e.value.signature) →
      text = c₂.sliceFrom c.peek → ReadsExpression c (.dictionary entries text) c₂ := by
    rintro entries _ c₂ hl₂ he rfl
    have hlt := hs.peek_lt heof hl₂
    refine ⟨hlt, Cursor.sliceFrom_eq rfl hlt, fun _ => ?_, by simp⟩
    have hall := legible_entrySignatures he
    have hkeys := Signature.legible_common? (l := (entrySignatures entries).map Prod.fst)
      (by simpa using fun t u h => (hall _ h).1) hhashable
    have hvalues := Signature.legible_common? (l := (entrySignatures entries).map Prod.snd)
      (by simpa using fun t u h => (hall _ h).2) hany
    have := (hkeys.then_symbol (c := ':') rfl hvalues.space).enclose (c := '[') (d := ']') rfl rfl
    show LegibleIn c.source ('[' :: _ ++ ": ".toList ++ _ ++ [']'])
    simpa using this
  have harray : ∀ es text c₂, (c.advance 1).Leads c₂ →
      (∀ e ∈ es, LegibleIn c.source e.signature) →
      text = c₂.sliceFrom c.peek → ReadsExpression c (.array es text) c₂ := by
    rintro es _ c₂ hl₂ he rfl
    have hlt := hs.peek_lt heof hl₂
    refine ⟨hlt, Cursor.sliceFrom_eq rfl hlt, fun _ => ?_, by simp⟩
    exact (Signature.legible_common? (legible_signatures he) hany).enclose (c := '[') (d := ']')
      rfl rfl
  have hblunt₁ : (c.advance 1).Blunt := hs.blunt_advance (by simp [hsymbol]) heof
  refine Spec.consume_bind hs (Spec.get_bind (Spec.ite (fun _ => ?_) fun _ =>
    Spec.ite (fun _ => ?_) fun _ => ?_))
  · refine Spec.skip_bind hs₁ (Spec.sliceFrom_bind (Spec.pure (hs₁.advance 2).sound ?_))
    exact hdictionary _ _ _ (hs₁.advance 2) (by simp) rfl
  · refine Spec.skip_bind hs₁ (Spec.sliceFrom_bind (Spec.pure (hs₁.advance 1).sound ?_))
    exact harray _ _ _ (hs₁.advance 1) (by simp) rfl
  · refine Spec.bind (Reliable.legible hg hs₁ hblunt₁ hl₁.source) fun first c₂ hl₂ hfirst => ?_
    refine Spec.current_bind (Spec.ite (fun hcolon => ?_) fun _ => ?_)
    · have hkcolon := Token.kind_of_isSymbol hcolon
      have hl₃ := hl₂.sound.advance 1
      have hb₃ := hl₂.sound.blunt_advance (by simp [hkcolon]) (by simp [hkcolon])
      refine Spec.skip_bind hl₂.sound (Spec.bind (Reliable.legible hg hl₃.sound hb₃
        ((hl₁.trans hl₂).trans hl₃).source) ?_)
      intro value c₄ hl₄ hvalue
      refine Spec.sliceFrom_bind (Spec.bind (otherItems_spec (P := fun e : Entry =>
        LegibleIn c.source e.key.signature ∧ LegibleIn c.source e.value.signature) hl₄.sound
          fun c₅ hl₅ hb₅ => ?_) ?_)
      · have hl' := (((hl₁.trans hl₂).trans hl₃).trans hl₄).trans hl₅
        refine Spec.current_bind (Spec.bind (Reliable.legible hg hl₅.sound hb₅ hl'.source) ?_)
        intro key c₆ hl₆ hkey
        refine Spec.expect_bind hl₆.sound fun hcolon => ?_
        have hkcolon := hl₆.sound.kind_of_reads (m := ':') rfl hcolon
        refine Spec.bind (Reliable.legible hg (hl₆.sound.advance 1).sound
          (hl₆.sound.blunt_advance (by simp [hkcolon]) (by simp [hkcolon]))
          ((hl'.trans hl₆).trans (hl₆.sound.advance 1)).source) ?_
        exact fun value c₇ hl₇ hvalue => Spec.sliceFrom_bind (Spec.pure hl₇.sound ⟨hkey, hvalue⟩)
      · intro others c₅ hl₅ hothers
        refine Spec.expect_bind hl₅.sound fun _ => Spec.sliceFrom_bind
          (Spec.pure (hl₅.sound.advance 1).sound ?_)
        exact hdictionary _ _ _ (((hl₂.trans hl₃).trans (hl₄.trans hl₅)).trans
          (hl₅.sound.advance 1)) (by simpa using ⟨⟨hfirst, hvalue⟩, hothers⟩) rfl
    · refine Spec.bind (otherItems_spec hl₂.sound fun c₃ hl₃ hb₃ =>
          Reliable.legible hg hl₃.sound hb₃ ((hl₁.trans hl₂).trans hl₃).source) fun others c₃ hl₃ hothers => Spec.expect_bind hl₃.sound fun _ => ?_
      exact Spec.sliceFrom_bind (Spec.pure (hl₃.sound.advance 1).sound (harray _ _ _
        ((hl₂.trans hl₃).trans (hl₃.sound.advance 1)) (by simpa using ⟨hfirst, hothers⟩) rfl))

theorem nameExpression_spec (he : c.peek.kind ≠ .eof) :
    Spec g.nameExpression c (ReadsExpression c) := by
  have hs₁ := (hs.advance 1).sound
  have hlt₁ := hs.peek_lt he hs₁.refl
  have hname : ∀ c₁ : Cursor, (c.advance 1).Leads c₁ → c₁.behind = (c.advance 1).behind →
      ReadsExpression c (.reference c.peek.text c.peek.text) c₁ := by
    intro c₁ hl₁ hb
    have hedge : c₁.edge = (c.advance 1).edge := by rw [Cursor.edge, hb, Cursor.edge]
    have hlt : c.peek.start < c₁.edge := hedge ▸ hlt₁
    refine .of_text hs ((hs.advance 1).trans hl₁) hlt ?_ rfl (by simp)
    rw [Cursor.upTo, hl₁.source, hedge]
    refine .trans ?_ (hs.upTo_advance he).symm
    cases htext : c.peek.text <;> rfl
  refine Spec.consume_bind hs (Spec.get_bind (Spec.ite (fun _ => ?_) fun _ =>
    Spec.pure hs₁ (hname _ hs₁.refl rfl)))
  refine Spec.bind (Spec.attempt (specializationClause_spec hg hs₁)) fun o c₁ hl₁ ho => ?_
  cases o with
  | none => exact Spec.pure hl₁.sound (hname c₁ hl₁ (ho.2 rfl))
  | some clause =>
    have hlt := hs.peek_lt he hl₁
    exact Spec.sliceFrom_bind (Spec.pure hl₁.sound (.of_text hs ((hs.advance 1).trans hl₁) hlt
      (Cursor.sliceFrom_eq rfl hlt) rfl (by simp)))

theorem wordExpression_spec (hk : c.peek.kind = .identifier) :
    Spec g.wordExpression c (ReadsExpression c) := by
  have he : c.peek.kind ≠ .eof := by simp [hk]
  have hs₁ := (hs.advance 1).sound
  refine Spec.current_bind (Spec.ite (fun _ => ?_) fun _ => Spec.ite (fun _ => ?_) fun _ =>
    Spec.ite (fun _ => controlExpression_spec hs he) fun _ => nameExpression_spec hg hs he)
  · have hsig : LegibleIn c.source "Bool".toList :=
      .of_words (w := [(.identifier, "Bool".toList)]) (by decide) (by decide) (by decide)
    exact Spec.skip_bind hs (Spec.pure hs₁ (.of_token hs he rfl hsig (by simp)))
  · have hsig : LegibleIn c.source Signature.nilSentinel :=
      .of_words (w := [(.identifier, "Nil".toList)]) (by decide) (by decide) (by decide)
    exact Spec.skip_bind hs (Spec.pure hs₁ (.of_token hs he rfl hsig (by simp)))

theorem primary_spec : Spec g.primary c (ReadsExpression c) := by
  have hs₁ := (hs.advance 1).sound
  have hliteral : ∀ (e : Expression) (word : String), c.peek.kind ≠ .eof →
      e.toText = c.peek.text → e.signature = word.toList →
      Token.words word.toList = .ok [(.identifier, word.toList)] → '/' ∉ word.toList →
      '\r' ∉ word.toList → (∀ T t, e ≠ .typeOperand T t) → 
      Spec (skip 1 >>= fun _ => pure e) c (ReadsExpression c) := by
    intro e word he ht hsig hwords hslash hflat hop
    refine Spec.skip_bind hs (Spec.pure hs₁ (.of_token hs he ht ?_ hop))
    exact hsig ▸ .of_words hwords hslash hflat
  have hslice : ∀ (e : Expression) c₁, (c.advance 1).Leads c₁ → c.peek.kind ≠ .eof →
      e.toText = c₁.sliceFrom c.peek → e.signature = Text.trim e.toText →
      (∀ T t, e ≠ .typeOperand T t) → ReadsExpression c e c₁ := by
    intro e c₁ hl₁ he ht hsig hop
    have hlt := hs.peek_lt he hl₁
    exact .of_text hs ((hs.advance 1).trans hl₁) hlt (ht.trans (Cursor.sliceFrom_eq rfl hlt)) hsig hop
  refine Spec.get_bind ?_
  extract_lets t
  split
  next hk =>
    exact hliteral _ "Int" (by simp [t, hk]) rfl rfl (by decide) (by decide) (by decide)
      (by simp)
  next hk =>
    exact hliteral _ "CGFloat" (by simp [t, hk]) rfl rfl (by decide) (by decide) (by decide)
      (by simp)
  next hk =>
    exact hliteral _ "String" (by simp [t, hk]) rfl rfl (by decide) (by decide) (by decide)
      (by simp)
  next hk => exact wordExpression_spec hg hs hk
  next hk =>
    refine Spec.bind (expansionRule_spec hg hs) fun e c₁ hl₁ he => Spec.pure hl₁.sound ?_
    exact .of_text hs hl₁ he.lt he.text rfl (by simp)
  next hk => exact keyPath_spec hs (by simp [t, hk])
  · refine Spec.ite (fun hm => ?_) fun _ => Spec.ite (fun hm => ?_) fun _ =>
      Spec.ite (fun hm => ?_) fun _ => Spec.ite (fun hm => ?_) fun _ => Spec.fail hs
    · simp only [Bool.and_eq_true, beq_iff_eq] at hm
      refine Spec.skip_bind hs (Spec.sliceFrom_bind (Spec.pure (hs.advance 2).sound ?_))
      exact hslice _ _ (Cursor.advance_add c 1 1 ▸ hs₁.advance 1) (by simp [t, hm.1.1]) rfl rfl
        (by simp)
    · exact collectionLiteral_spec hg hs hm
    · have hk := Token.kind_of_isSymbol hm
      refine Spec.bind (arguments_spec hg hs hm) fun as c₁ hl₁ ⟨has, _, hlt⟩ => ?_
      refine Spec.sliceFrom_bind (Spec.pure hl₁.sound ⟨hlt, Cursor.sliceFrom_eq rfl hlt,
        fun _ => ?_, by simp⟩)
      exact (LegibleIn.join (argumentSignatures_legible has)).enclose (c := '(') (d := ')') rfl rfl
    · refine Spec.bind (closureRule_spec hg hs) fun k c₁ hl₁ hk => Spec.pure hl₁.sound ?_
      refine ⟨hk.lt, hk.toText hl₁, fun _ => hk.legible, by simp⟩

end Literals

section Operators

/-- One more suffix of an operand that begins at `start`. -/
def suffixStep (g : Grammar) (start : Token) (e : Expression) : Parser (Option Expression) := do
  let c ← get
  let t := c.peek
  let next := c.peek 1
  if t.kind == .dot && (next.kind == .identifier || next.kind == .integer) then
    skip 2
    return some (.member e next.text (← sliceFrom start))
  else if t.isSymbol "(" && !t.newlineBefore then
    let arguments ← g.arguments "(" ")"
    let trailing ← g.trailingClosure
    return some (.call e arguments trailing true (← sliceFrom start))
  else if t.isSymbol "[" && !t.newlineBefore && !t.spaceBefore then
    let arguments ← g.arguments "[" "]"
    return some (.subscript e arguments (← sliceFrom start))
  else if closureFollows c then
    let trailing ← g.closureRule
    return some (.call e [] (some trailing) false (← sliceFrom start))
  else if isMarks t && !t.spaceBefore then
    let mark ← consumePart 1
    return some (.postfixed e mark.text (← sliceFrom start))
  else return none

variable (hg : g.Reliable)
include hg

theorem suffixStep_spec {e : Expression} {c₁ : Cursor} (hs : c.Sound) (hl₁ : c.Leads c₁)
    (hi : ReadsExpression c e c₁) : Spec (g.suffixStep c.peek e) c₁ fun o c₂ =>
      (∀ e', o = some e' → ReadsExpression c e' c₂) ∧ (o = none → ReadsExpression c e c₂) := by
  refine Spec.get_bind ?_
  have hslice : ∀ (e' : Expression) c₂, c₁.Leads c₂ → e'.toText = c₂.sliceFrom c.peek →
      e'.signature = Text.trim e'.toText → (∀ T t, e' ≠ .typeOperand T t) →
      ReadsExpression c e' c₂ := by
    intro e' c₂ hl₂ ht hsig hop
    have hlt := hi.lt.trans_le hl₂.edge_le
    exact .of_text hs (hl₁.trans hl₂) hlt (ht.trans (Cursor.sliceFrom_eq rfl hlt)) hsig hop
  have hcall : ∀ as k parens c₂, c₁.Leads c₂ →
      ReadsExpression c (.call e as k parens (c₂.sliceFrom c.peek)) c₂ := by
    intro as k parens c₂ hl₂
    have hlt := hi.lt.trans_le hl₂.edge_le
    refine ⟨hlt, Cursor.sliceFrom_eq rfl hlt, fun hcut => ?_, by simp⟩
    exact hi.legible_text hs hl₁ (hl₂.source ▸ hcut)
  have hsome : ∀ (e' : Expression) c₂, c₁.Leads c₂ → ReadsExpression c e' c₂ →
      Spec (pure (some e')) c₂ fun o c'' =>
        (∀ s', o = some s' → ReadsExpression c s' c'') ∧ (o = none → ReadsExpression c e c'') := by
    intro e' c₂ hl₂ he
    refine Spec.pure hl₂.sound ⟨?_, by simp⟩
    rintro _ ⟨rfl⟩
    exact he
  have hs₁ := hl₁.sound
  extract_lets t next
  refine Spec.ite (fun _ => ?_) fun _ => Spec.ite (fun hm => ?_) fun _ => Spec.ite (fun hm => ?_)
    fun _ => Spec.ite (fun _ => ?_) fun _ => Spec.ite (fun hm => ?_) fun _ => ?_
  · have hl₂ := hs₁.advance 2
    exact Spec.skip_bind hs₁ (Spec.sliceFrom_bind (hsome _ _ hl₂ (hslice _ _ hl₂ rfl rfl (by simp))))
  · simp only [Bool.and_eq_true] at hm
    refine Spec.bind (arguments_spec hg hs₁ hm.1) fun as c₂ hl₂ _ => ?_
    refine Spec.bind (trailingClosure_spec hg hl₂.sound) fun k c₃ hl₃ _ => Spec.sliceFrom_bind ?_
    exact hsome _ _ (hl₂.trans hl₃) (hcall as k true _ (hl₂.trans hl₃))
  · simp only [Bool.and_eq_true] at hm
    refine Spec.bind (arguments_spec hg hs₁ hm.1.1) fun as c₂ hl₂ _ => Spec.sliceFrom_bind ?_
    exact hsome _ _ hl₂ (hslice _ _ hl₂ rfl rfl (by simp))
  · refine Spec.bind (closureRule_spec hg hs₁) fun k c₂ hl₂ _ => Spec.sliceFrom_bind ?_
    exact hsome _ _ hl₂ (hcall [] (some k) false _ hl₂)
  · simp only [t, isMarks, Bool.and_eq_true, beq_iff_eq] at hm
    obtain ⟨⟨hk, hall⟩, -⟩ := hm
    obtain ⟨m, u, hm⟩ := List.exists_cons_of_ne_nil (hs₁.placed_peek (by simp [hk])).text_ne_nil
    rw [hm, List.all_cons, Bool.and_eq_true, Bool.or_eq_true, beq_iff_eq, beq_iff_eq] at hall
    have hmark : isMarkChar m = true := by rcases hall.1 with rfl | rfl <;> rfl
    refine Spec.consumePart_bind hs₁ hk (by simp [hm]) hmark fun u c₂ hl₂ _ _ _ _ _ => ?_
    exact Spec.sliceFrom_bind (hsome _ _ hl₂ (hslice _ _ hl₂ rfl rfl (by simp)))
  · exact Spec.pure hs₁ ⟨by simp, fun _ => hi⟩

theorem suffixes_spec {base : Expression} (hs : c.Sound) (hl : c.Leads c')
    (hb : ReadsExpression c base c') : Spec (g.suffixes c.peek base) c' (ReadsExpression c) :=
  Spec.extend (fun _ _ hl₁ hi => suffixStep_spec hg hs (hl.trans hl₁) hi) hl.sound hb

variable (hs : c.Sound)
include hs

/-- Words and prefix operators stand in front of an operand, which is read with the given grammar. -/
theorem operandRule_spec : Spec g.operandRule c (ReadsExpression c) := by
  have hs₁ := (hs.advance 1).sound
  refine Spec.get_bind ?_
  extract_lets start next jp
  have hjp : ∀ u c₁, (c.advance 1).Leads c₁ → Spec (jp u) c₁ (ReadsExpression c) := by
    intro u c₁ hl₁
    refine Spec.sliceFrom_bind (Spec.bind (hg.operand c₁ hl₁.sound) fun inner c₂ hl₂ hinner => ?_)
    have hl := ((hs.advance 1).trans hl₁).trans hl₂
    have hlt := (((hs.advance 1).trans hl₁).peek_le hs).trans_lt hinner.lt
    exact Spec.sliceFrom_bind (Spec.pure hl₂.sound (.of_text hs hl hlt (Cursor.sliceFrom_eq rfl hlt)
      rfl (by simp)))
  refine Spec.ite (fun _ => Spec.skip_bind hs (Spec.ite (fun hm => ?_) fun _ => ?_)) fun _ =>
    Spec.ite (fun hm => ?_) fun _ => Spec.ite (fun _ => ?_) fun _ => ?_
  · simp only [Bool.and_eq_true] at hm
    obtain ⟨hk, m, hhead, hmark⟩ := Token.mark_of_isMark hm.1.2
    rw [show next = (c.advance 1).peek from (c.peek_advance 1 0).symm] at hk hhead
    exact Spec.consumePart_bind hs₁ hk hhead hmark fun _ c₁ hl₁ _ _ _ _ _ => hjp () c₁ hl₁
  · exact hjp () _ hs₁.refl
  · simp only [Bool.and_eq_true, beq_iff_eq] at hm
    have he : c.peek.kind ≠ .eof := by
      rw [show c.peek.kind = .operator from hm.1]
      decide
    exact Spec.skip_bind hs (Spec.pure hs₁ (.of_text hs (hs.advance 1) (hs.peek_lt he hs₁.refl)
      (hs.upTo_advance he).symm rfl (by simp)))
  · refine Spec.skip_bind hs (Spec.bind (hg.operand _ hs₁) fun inner c₁ hl₁ hinner => ?_)
    have hlt := ((hs.advance 1).peek_le hs).trans_lt hinner.lt
    exact Spec.sliceFrom_bind (Spec.pure hl₁.sound (.of_text hs ((hs.advance 1).trans hl₁) hlt
      (Cursor.sliceFrom_eq rfl hlt) rfl (by simp)))
  · exact Spec.bind (primary_spec hg hs) fun base c₁ hl₁ hbase => suffixes_spec hg hs hl₁ hbase

omit hg in
theorem castModifier_spec : Spec castModifier c fun _ _ => True := by
  refine Spec.current_bind (Spec.ite (fun hm => ?_) fun _ => Spec.pure hs trivial)
  simp only [Bool.and_eq_true] at hm
  obtain ⟨hk, m, hhead, hmark⟩ := Token.mark_of_isMark hm.1
  exact Spec.consumePart_bind hs hk hhead hmark fun _ c₁ hl₁ _ _ _ _ _ => Spec.pure hl₁.sound trivial

/-- The types behind casts have legible signatures. -/
theorem sequenceTail_spec : Spec g.sequenceTail c fun o c' =>
    (∀ es ∈ o, ∀ T t, Expression.typeOperand T t ∈ es → LegibleIn c.source T.signature) ∧
      (o = none → c' = c) := by
  have hs₁ := (hs.advance 1).sound
  refine Spec.get_bind ?_
  extract_lets t jp jp'
  have hjp : ∀ link c₁, c.Leads c₁ → (∀ T t, Expression.typeOperand T t ≠ link) →
      Spec (jp link) c₁ fun o c' =>
        (∀ es ∈ o, ∀ T t, Expression.typeOperand T t ∈ es →
          LegibleIn c.source T.signature) ∧ (o = none → c' = c) := by
    intro link c₁ hl₁ hlink
    refine Spec.current_bind (Spec.bind (hg.type c₁ hl₁.sound) fun target c₂ hl₂ htarget => ?_)
    refine Spec.sliceFrom_bind (Spec.pure hl₂.sound ⟨?_, by simp⟩)
    rintro _ ⟨rfl⟩ T text hmem
    rcases List.mem_pair.mp hmem with h | h
    · exact absurd h (hlink T text)
    · obtain ⟨rfl, rfl⟩ := Expression.typeOperand.inj h
      exact hl₁.source ▸ htarget.legible
  have hjp' : ∀ link c₁, c.Leads c₁ → (∀ T t, Expression.typeOperand T t ≠ link) →
      Spec (jp' link) c₁ fun o c' =>
        (∀ es ∈ o, ∀ T t, Expression.typeOperand T t ∈ es →
          LegibleIn c.source T.signature) ∧ (o = none → c' = c) := by
    intro link c₁ hl₁ hlink
    refine Spec.bind (operandRule_spec hg hl₁.sound) fun operand c₂ hl₂ hoperand => ?_
    refine Spec.pure hl₂.sound ⟨?_, by simp⟩
    rintro _ ⟨rfl⟩ T text hmem
    rcases List.mem_pair.mp hmem with h | h
    · exact absurd h (hlink T text)
    · exact hl₁.source ▸ hoperand.operand T text h.symm
  refine Spec.ite (fun _ => Spec.skip_bind hs (Spec.ite (fun _ => ?_) fun _ => ?_)) fun _ =>
    Spec.ite (fun _ => Spec.skip_bind hs (Spec.ite (fun _ => ?_) fun _ => ?_)) fun _ =>
      Spec.pure hs ⟨by simp, fun _ => rfl⟩
  · refine Spec.bind (castModifier_spec hs₁) fun modifier c₁ hl₁ _ => Spec.sliceFrom_bind ?_
    exact Spec.pure_bind (hjp _ c₁ ((hs.advance 1).trans hl₁) (by simp))
  · exact Spec.pure_bind (hjp _ _ (hs.advance 1) (by simp))
  · refine Spec.bind (hg.expression _ hs₁) fun choice c₁ hl₁ _ => ?_
    refine Spec.expect_bind hl₁.sound fun _ => Spec.sliceFrom_bind (Spec.pure_bind ?_)
    exact hjp' _ _ (((hs.advance 1).trans hl₁).trans (hl₁.sound.advance 1)) (by simp)
  · exact Spec.pure_bind (hjp' _ _ (hs.advance 1) (by simp))

theorem expressionRule_spec : Spec g.expressionRule c (ReadsExpression c) := by
  refine Spec.current_bind (Spec.bind (operandRule_spec hg hs) fun first c₁ hl₁ hfirst => ?_)
  refine Spec.bind (Spec.collect (I := fun ess c' => (ess = [] → c' = c₁) ∧
    ∀ es ∈ ess, ∀ T t, Expression.typeOperand T t ∈ es → LegibleIn c.source T.signature)
    (Q := fun ess c' => (ess = [] → c' = c₁) ∧
    ∀ es ∈ ess, ∀ T t, Expression.typeOperand T t ∈ es → LegibleIn c.source T.signature)
    (fun ess c₂ hl₂ hi => ?_) hl₁.sound ⟨fun _ => rfl, by simp⟩) fun ess c₂ hl₂ ⟨hnil, hess⟩ => ?_
  · refine (sequenceTail_spec hg hl₂.sound).mono fun o c₃ hl₃ ⟨hsome, hnone⟩ => ⟨?_, fun ho => ?_⟩
    · rintro es rfl
      exact ⟨by simp, by simpa [or_imp, forall_and] using
        ⟨hi.2, (hl₁.trans hl₂).source ▸ hsome es rfl⟩⟩
    · rw [hnone ho]
      exact hi
  · refine Spec.ite (fun he => ?_) fun _ => ?_
    · obtain rfl := hnil (by simpa using he)
      exact Spec.pure hl₂.sound hfirst
    · have hl := hl₁.trans hl₂
      have hlt := hfirst.lt.trans_le hl₂.edge_le
      refine Spec.sliceFrom_bind (Spec.pure hl₂.sound ⟨hlt, Cursor.sliceFrom_eq rfl hlt,
        fun _ => ?_, by simp⟩)
      have hcast := Signature.legible_castType? (l := first :: ess.flatten) fun T t ht => by
        rcases List.mem_cons.mp ht with h | h
        · exact hfirst.operand T t h.symm
        · obtain ⟨es, hes, hmem⟩ := List.mem_flatten.mp h
          exact hess es hes T t hmem
      show LegibleIn c.source
        (((Signature.castType? (first :: ess.flatten)).map TypeTree.signature).getD "Any".toList)
      cases hT : Signature.castType? (first :: ess.flatten) with
      | none =>
        exact .of_words (w := [(.identifier, "Any".toList)]) (by decide) (by decide) (by decide)
      | some T => exact hcast T hT

end Operators

end Grammar

end SwiftMacros
