import Mathlib
import SwiftMacros.Proofs.Grammar.Accessors
import SwiftMacros.Proofs.Grammar.Links
import SwiftMacros.Proofs.Setter.Nominal
import SwiftMacros.Proofs.Setter.Omission

/-! Which setters have a parameter type. All types in a signature have been read, and what opens no brace
is a type in the signature too; so is a name that stands for itself. Of anything else, what is written
tells whether it is a type. Only where nothing is written, a signature is empty. -/

namespace SwiftMacros

open Signature (Ingredient Signed common?)
open SwiftMacros.Parser

namespace Parser.Spec

variable {α : Type} {p : Parser α} {c : Cursor} {Q R : α → Cursor → Prop}

/-- A parser guarantees what holds of its answers. -/
theorem answers (h : Spec p c Q) (hp : ∀ a c', p c = .ok a c' → R a c') : Spec p c R := by
  rw [Spec] at h ⊢
  split at h
  next hread => exact ⟨h.1, hp _ _ hread⟩
  next => exact h

theorem always {R : α → Prop} (h : Spec p c Q) (hp : Always p R) : Spec p c fun a _ => R a := h.answers (hp c)

end Parser.Spec

/-- A type that has been read is written somehow. -/
theorem ReadsType.trim_ne_nil {c c' : Cursor} {T : TypeTree} (hl : c.Leads c') (hs : c.Sound)
    (h : ReadsType c T c') : Text.trim T.text ≠ [] := by
  rw [h.text, hl.trim_upTo h.lt hs]
  exact hl.upTo_ne_nil h.lt

/-- Whether a part of a signature is a type by itself: a type that has been read, if no brace is opened in it;
what stands for itself, if it is a name or is read as a type as it is written. -/
def Signature.Ingredient.isTyped : Ingredient → Bool
  | type T => braces T.text == 0
  | source e => e.isNominal && braces e.toText == 0 || isPlain (Text.trim e.toText)
  | rest t => isPlain (Text.trim t)
  | label _ => true

/-- Whether nothing is written where the type of a property is read off. -/
def Property.isBlank (p : Property) : Bool :=
  match p.type, p.initializer with
  | some (.raw t), _ => (Text.trim t).isEmpty
  | none, some (.raw t) => (Text.trim t).isEmpty
  | _, _ => false

namespace Grammar

variable {g : Grammar} {c₀ c : Cursor}

/-- Where a part of a signature comes from: types and expressions are read behind `c₀`, labels are names. -/
def Found (c₀ : Cursor) : Ingredient → Prop
  | .type T => ∃ m c c', c₀.Leads c ∧ (upTo m).type c = .ok T c'
  | .source e => ∃ c c', c₀.Leads c ∧ c.Leads c' ∧ ReadsExpression c e c' ∧ (e.isNominal = true → Nominal c e c')
  | .rest t => Text.trim t ≠ []
  | .label l => Token.IsName l

/-- The grammar reads expressions whose parts it finds behind `c₀`. -/
structure Gathers (g : Grammar) (c₀ : Cursor) : Prop where
  reached : c₀.Reached
  level : ∃ m, g = upTo m
  reliable : g.Reliable
  type : ∀ c, c₀.Leads c → Spec g.type c fun T _ => Found c₀ T.part
  expression : ∀ c, c₀.Leads c → Spec g.expression c fun e _ => ∀ x ∈ e.parts, Found c₀ x

theorem mem_argumentParts {x : Ingredient} {as : List Argument} : x ∈ argumentParts as ↔
    ∃ a ∈ as, (∃ l ∈ a.label, x = .label l) ∨ x ∈ a.expression.parts := by
  induction as with
  | nil => simp [argumentParts]
  | cons a as ih =>
    obtain ⟨e, label, text⟩ := a
    simp [argumentParts, ih, or_assoc, eq_comm]

/-- The signature of an expression stands for itself, or needs no part. -/
def Plain (e : Expression) : Prop := ∀ x ∈ e.parts, x = .source e

theorem Plain.of_nil {e : Expression} (h : e.parts = []) : Plain e := by simp [Plain, h]

theorem Plain.of_source {e : Expression} (h : e.parts = [.source e]) : Plain e := by simp [Plain, h]

/-- What is told of an operand that is read between two cursors: it is a name if it is written as one, and
its parts are the operand itself, or found. -/
structure Told (c₀ c : Cursor) (e : Expression) (c' : Cursor) : Prop where
  named : e.isNominal = true → Nominal c e c'
  parts : ∀ x ∈ e.parts, x = .source e ∨ Found c₀ x

namespace Told

variable {c' : Cursor} {e : Expression}

theorem of_plain (hn : e.isNominal = false) (h : Plain e) : Told c₀ c e c' :=
  ⟨fun h => absurd (hn.symm.trans h) Bool.false_ne_true, fun x hx => .inl (h x hx)⟩

theorem of_found (hn : e.isNominal = false) (h : ∀ x ∈ e.parts, Found c₀ x) : Told c₀ c e c' :=
  ⟨fun h => absurd (hn.symm.trans h) Bool.false_ne_true, fun x hx => .inr (h x hx)⟩

theorem source (h : Told c₀ c e c') (hl : c₀.Leads c) (hl' : c.Leads c') (hread : ReadsExpression c e c') :
    Found c₀ (.source e) := ⟨c, c', hl, hl', hread, h.named⟩

theorem found (h : Told c₀ c e c') (hl : c₀.Leads c) (hl' : c.Leads c') (hread : ReadsExpression c e c') :
    ∀ x ∈ e.parts, Found c₀ x := by
  intro x hx
  rcases h.parts x hx with rfl | hx
  · exact h.source hl hl' hread
  · exact hx

end Told

section Expressions

variable (hf : g.Gathers c₀) (hl : c₀.Leads c)
include hf hl

theorem arguments_found {first last : String} (hfirst : c.peek.isSymbol first = true) :
    Spec (g.arguments first last) c fun as _ => ∀ x ∈ argumentParts as, Found c₀ x := by
  refine (Spec.listed (P := fun a : Argument => ∀ x, (∃ l ∈ a.label, x = .label l) ∨ x ∈ a.expression.parts →
    Found c₀ x) hl.sound hfirst fun c₁ hl₁ _ => Spec.get_bind ?_).mono fun as _ _ ⟨has, _⟩ x hx => ?_
  · have hl₁ := (hl.trans (hl.sound.advance 1)).trans hl₁
    extract_lets start jp
    have hjp : ∀ label c₂, c₁.Leads c₂ → (∀ l ∈ label, Token.IsName l) →
        Spec (jp label) c₂ fun a _ => ∀ x, (∃ l ∈ a.label, x = .label l) ∨ x ∈ a.expression.parts →
          Found c₀ x := by
      intro label c₂ hl₂ hlabel
      refine Spec.bind (hf.expression c₂ (hl₁.trans hl₂)) fun e c₃ hl₃ he => ?_
      refine Spec.sliceFrom_bind (Spec.pure hl₃.sound fun x hx => ?_)
      rcases hx with ⟨l, hl, rfl⟩ | hx
      · exact hlabel l hl
      · exact he x hx
    refine Spec.ite (fun hlabel => ?_) fun _ => Spec.pure_bind (hjp none c₁ hl₁.sound.refl (by simp))
    simp only [start, Bool.and_eq_true, beq_iff_eq] at hlabel
    refine Spec.skip_bind hl₁.sound (Spec.pure_bind (hjp _ _ (hl₁.sound.advance 2) ?_))
    rintro l ⟨rfl⟩
    exact (hl₁.sound.placed_peek (by simp [hlabel.1])).isName hlabel.1
  · obtain ⟨a, ha, hx⟩ := mem_argumentParts.mp hx
    exact has a ha x hx

theorem closureParameter_found : Spec g.closureParameter c fun p _ => ∀ T ∈ p.type, Found c₀ T.part := by
  refine Spec.current_bind ?_
  extract_lets jp jp'
  have hjp : ∀ name c₁, c.Leads c₁ → Spec (jp name) c₁ fun p _ => ∀ T ∈ p.type, Found c₀ T.part := by
    intro name c₁ hl₁
    have hs₁ := hl₁.sound
    refine Spec.current_bind (Spec.ite (fun _ => ?_) fun _ => Spec.pure_bind (Spec.sliceFrom_bind
      (Spec.pure hs₁ (by simp))))
    refine Spec.skip_bind hs₁ (Spec.bind (hf.type _ ((hl.trans hl₁).trans (hs₁.advance 1))) fun T c₂ hl₂ hT => ?_)
    refine Spec.bind (skipEllipsis_spec hl₂.sound) fun _ c₃ hl₃ _ => ?_
    exact Spec.pure_bind (Spec.sliceFrom_bind (Spec.pure hl₃.sound (by simpa using hT)))
  have hs₁ := (hl.sound.advance 1).sound
  refine Spec.ite (fun _ => Spec.fail hl.sound) fun _ => Spec.consume_bind hl.sound (Spec.current_bind ?_)
  refine Spec.ite (fun _ => ?_) fun _ => Spec.pure_bind (hjp _ _ (hl.sound.advance 1))
  exact Spec.consume_bind hs₁ (Spec.pure_bind (hjp _ _ ((hl.sound.advance 1).trans (hs₁.advance 1))))

theorem closureParameters_found : Spec g.closureParameters c fun o _ =>
    ∀ ps t, o = some (.typed ps t) → ∀ p ∈ ps, ∀ T ∈ p.type, Found c₀ T.part := by
  refine Spec.current_bind (Spec.ite (fun hk => ?_) fun _ => Spec.ite (fun hk => ?_) fun _ =>
    Spec.pure hl.sound (by simp))
  · refine Spec.bind (Spec.listed hl.sound hk fun c₁ hl₁ _ => closureParameter_found hf
        ((hl.trans (hl.sound.advance 1)).trans hl₁))
      fun ps c₁ hl₁ ⟨hps, _⟩ => ?_
    refine Spec.sliceFrom_bind (Spec.pure hl₁.sound ?_)
    rintro _ _ ⟨⟩
    exact hps
  · simp only [Bool.and_eq_true, beq_iff_eq] at hk
    exact Spec.bind (shorthandNames_spec hl.sound hk.1.1) fun names c₁ hl₁ _ =>
      Spec.sliceFrom_bind (Spec.pure hl₁.sound (by simp))

theorem returnClause_found : Spec g.returnClause c fun o _ => ∀ r ∈ o, Found c₀ r.type.part := by
  refine Spec.current_bind (Spec.ite (fun _ => ?_) fun _ => Spec.pure hl.sound (by simp))
  refine Spec.skip_bind hl.sound (Spec.bind (hf.type _ (hl.trans (hl.sound.advance 1))) fun T c₁ hl₁ hT => ?_)
  exact Spec.sliceFrom_bind (Spec.pure hl₁.sound (by simpa using hT))

theorem closureSignature_found : Spec g.closureSignature c fun s _ => ∀ x ∈ s.parts, Found c₀ x := by
  refine Spec.current_bind (Spec.bind (g.attributesRule_spec hf.reliable hl.sound) fun as c₁ hl₁ _ => ?_)
  refine Spec.current_bind ?_
  extract_lets jp
  have hjp : ∀ capture c₂, c₁.Leads c₂ → Spec (jp capture) c₂ fun s _ => ∀ x ∈ s.parts, Found c₀ x := by
    intro capture c₂ hl₂
    have hl₂ := (hl.trans hl₁).trans hl₂
    refine Spec.bind (closureParameters_found hf hl₂) fun ps c₃ hl₃ hps => ?_
    refine Spec.bind (effects_spec hl₃.sound) fun fx c₄ hl₄ _ => ?_
    refine Spec.bind (returnClause_found hf ((hl₂.trans hl₃).trans hl₄)) fun r c₅ hl₅ hr => ?_
    refine Spec.current_bind (Spec.ite (fun _ => ?_) fun _ => Spec.fail hl₅.sound)
    refine Spec.skip_bind hl₅.sound (Spec.sliceFrom_bind (Spec.pure (hl₅.sound.advance 1).sound fun x hx => ?_))
    rcases List.mem_append.mp hx with hx | hx
    · split at hx
      next qs t hqs =>
        obtain ⟨p, hp, hx⟩ := List.mem_filterMap.mp hx
        obtain ⟨T, hT, rfl⟩ := Option.map_eq_some_iff.mp hx
        exact hps qs t hqs p hp T hT
      next => cases hx
    · obtain ⟨r', hr', rfl⟩ : ∃ r' ∈ r, r'.type.part = x := by simpa using hx
      exact hr r' hr'
  refine Spec.ite (fun hk => ?_) fun _ => Spec.pure_bind (hjp none c₁ hl₁.sound.refl)
  exact Spec.bind (captureClause_spec hl₁.sound hf.reliable hk) fun k c₂ hl₂ _ => Spec.pure_bind (hjp _ c₂ hl₂)

theorem closureRule_found : Spec g.closureRule c fun k _ => ∀ x ∈ (Expression.closure k).parts, Found c₀ x := by
  refine (closureRule_reads hl.sound (closureSignature_found hf (hl.trans (hl.sound.advance 1)))).mono
    fun k _ _ ⟨_, _, _, _, _, _, hsig, _⟩ x hx => ?_
  cases hk : k.signature with
  | none => simp [Expression.parts, hk] at hx
  | some s => exact hsig s hk x (by simpa [Expression.parts, hk] using hx)

omit hf hl in
theorem mem_parts_array {x : Ingredient} {e : Expression} {es : List Expression} {t : Text}
    (h : x ∈ (Expression.array (e :: es) t).parts) : x ∈ e.parts := by
  rw [Expression.parts] at h
  split at h
  · exact h
  · cases h

omit hf hl in
theorem mem_parts_dictionary {x : Ingredient} {e : Entry} {es : List Entry} {t : Text}
    (h : x ∈ (Expression.dictionary (e :: es) t).parts) : x ∈ e.key.parts ∨ x ∈ e.value.parts := by
  obtain ⟨key, value, text⟩ := e
  rw [Expression.parts] at h
  refine (List.mem_append.mp h).imp (fun h => ?_) fun h => ?_
  · split at h
    · exact h
    · cases h
  · split at h
    · exact h
    · cases h

/-- The first member of a collection is the one that counts. -/
theorem collectionLiteral_told : Spec g.collectionLiteral c (Told c₀ c) := by
  have hs₁ := hl.sound.advance 1
  have hl₁ := hl.trans hs₁
  have hread : ∀ c', c₀.Leads c' → Spec g.expression c' fun _ _ => True := fun c' hl' => (hf.expression c' hl').lead
  refine Spec.consume_bind hl.sound (Spec.get_bind (Spec.ite (fun _ => ?_) fun _ => Spec.ite (fun _ => ?_)
    fun _ => ?_))
  · exact Spec.skip_bind hl₁.sound (Spec.sliceFrom_bind (Spec.pure (hl₁.sound.advance 2).sound
      (.of_found rfl (by simp [Expression.parts, entrySignatures, common?]))))
  · exact Spec.skip_bind hl₁.sound (Spec.sliceFrom_bind (Spec.pure (hl₁.sound.advance 1).sound
      (.of_found rfl (by simp [Expression.parts, signatures, common?]))))
  refine Spec.bind (hf.expression _ hl₁) fun first c₂ hl₂ hfirst => Spec.current_bind ?_
  have hl₂ := hl₁.trans hl₂
  refine Spec.ite (fun _ => ?_) fun _ => ?_
  · have hl₃ := hl₂.trans (hl₂.sound.advance 1)
    refine Spec.skip_bind hl₂.sound (Spec.bind (hf.expression _ hl₃) fun value c₄ hl₄ hvalue => Spec.sliceFrom_bind ?_)
    refine Spec.bind (otherItems_spec (P := fun _ => True) hl₄.sound fun c₅ hl₅ _ => ?_) fun others c₅ hl₅ _ => ?_
    · refine Spec.current_bind (Spec.bind (hread _ ((hl₃.trans hl₄).trans hl₅)) fun key c₆ hl₆ _ => ?_)
      refine Spec.expect_bind hl₆.sound fun _ => Spec.bind (hread _ ((((hl₃.trans hl₄).trans hl₅).trans hl₆).trans
        (hl₆.sound.advance 1))) fun value c₇ hl₇ _ => ?_
      exact Spec.sliceFrom_bind (Spec.pure hl₇.sound trivial)
    · refine Spec.expect_bind hl₅.sound fun _ => Spec.sliceFrom_bind (Spec.pure (hl₅.sound.advance 1).sound ?_)
      exact .of_found rfl fun x hx => (mem_parts_dictionary hx).elim (hfirst x) (hvalue x)
  · refine Spec.bind (otherItems_spec (P := fun _ => True) hl₂.sound fun c₃ hl₃ _ => hread _ (hl₂.trans hl₃))
      fun others c₃ hl₃ _ => Spec.expect_bind hl₃.sound fun _ => ?_
    exact Spec.sliceFrom_bind (Spec.pure (hl₃.sound.advance 1).sound
      (.of_found rfl fun x hx => hfirst x (mem_parts_array hx)))

end Expressions

section Operands

theorem wordExpression_plain : Always g.wordExpression Plain := by
  refine .behind fun t => .ite (.behind fun _ => .pure (.of_nil rfl)) <|
    .ite (.behind fun _ => .pure (.of_nil rfl)) <| .ite ?_ ?_
  · exact .behind fun _ => .behind fun _ => .behind fun _ => .pure (.of_source rfl)
  · refine .behind fun t => .behind fun c => .ite (.behind fun o => ?_) (.pure (.of_source rfl))
    cases o with
    | none => exact .pure (.of_source rfl)
    | some clause => exact .behind fun x => .pure (.of_source rfl)

theorem keyPath_isKeyPath : Always keyPath fun e => ∃ t, e = .keyPath t :=
  .behind fun _ => .behind fun _ => .behind fun _ => .pure ⟨_, rfl⟩

variable (hf : g.Gathers c₀) (hl : c₀.Leads c)
include hf hl

theorem wordExpression_told (hk : c.peek.kind = .identifier) : Spec g.wordExpression c (Told c₀ c) := by
  obtain ⟨m, rfl⟩ := hf.level
  have hc := hf.reached.lead hl
  exact (wordExpression_spec hf.reliable hl.sound hk).answers fun e c' h =>
    ⟨.of_wordExpression hc hk h, fun x hx => .inl (wordExpression_plain _ _ _ h x hx)⟩

theorem primary_told : Spec g.primary c (Told c₀ c) := by
  have hs := hl.sound
  have hs₁ := (hs.advance 1).sound
  have hliteral : ∀ e : Expression, e.isNominal = false → e.parts = [] →
      Spec (skip 1 >>= fun _ => pure e) c (Told c₀ c) := fun e hn he =>
    Spec.skip_bind hs (Spec.pure hs₁ (.of_plain hn (.of_nil he)))
  refine Spec.get_bind ?_
  extract_lets t
  split
  next => exact hliteral _ rfl rfl
  next => exact hliteral _ rfl rfl
  next => exact hliteral _ rfl rfl
  next hk => exact wordExpression_told hf hl hk
  next =>
    exact Spec.bind (expansionRule_spec hf.reliable hs) fun e c₁ hl₁ _ =>
      Spec.pure hl₁.sound (.of_plain rfl (.of_source rfl))
  next hk =>
    refine ((keyPath_spec hs (by simp [t, hk])).always keyPath_isKeyPath).mono fun e _ _ ⟨x, he⟩ => ?_
    exact he ▸ .of_plain rfl (.of_nil rfl)
  · refine Spec.ite (fun _ => ?_) fun _ => Spec.ite (fun _ => collectionLiteral_told hf hl) fun _ =>
      Spec.ite (fun hm => ?_) fun _ => Spec.ite (fun _ => ?_) fun _ => Spec.fail hs
    · exact Spec.skip_bind hs (Spec.sliceFrom_bind (Spec.pure (hs.advance 2).sound (.of_plain rfl (.of_source rfl))))
    · exact Spec.bind (arguments_found hf hl hm) fun as c₁ hl₁ has =>
        Spec.sliceFrom_bind (Spec.pure hl₁.sound (.of_found rfl has))
    · exact Spec.bind (closureRule_found hf hl) fun k c₁ hl₁ hk => Spec.pure hl₁.sound (.of_found rfl hk)

/-- A suffix makes a member of a name, or what stands for itself, or a call. -/
theorem suffixStep_told {e : Expression} {c₁ : Cursor} (hl₁ : c.Leads c₁) (hread : ReadsExpression c e c₁)
    (h : Told c₀ c e c₁) : Spec (g.suffixStep c.peek e) c₁ fun o c₂ =>
      (∀ e', o = some e' → ReadsExpression c e' c₂ ∧ Told c₀ c e' c₂) ∧
        (o = none → ReadsExpression c e c₂ ∧ Told c₀ c e c₂) := by
  have hspec := suffixStep_spec hf.reliable hl.sound hl₁ hread
  refine hspec.answers fun o c₂ ho => ?_
  obtain ⟨hsome, hnone⟩ := (hspec.ok ho).2
  refine ⟨fun e' he' => ⟨hsome e' he', ?_⟩, fun hn => ⟨hnone hn, ?_⟩⟩
  · subst he'
    obtain ⟨t, hdot, hname, rfl, rfl⟩ | ⟨hn, hparts | hparts⟩ := suffixStep_cases ho
    · refine ⟨fun hn => .member (h.named ?_) hdot hname, by simp [Expression.parts]⟩
      simp only [Expression.isNominal, Bool.and_eq_true] at hn
      exact hn.1.1
    · exact .of_plain hn (.of_source hparts)
    · exact .of_found hn (by simpa [hparts] using h.source hl hl₁ hread)
  · subst hn
    rwa [suffixStep_eq_none ho]

theorem operandRule_told : Spec g.operandRule c fun e c' => ReadsExpression c e c' ∧ Told c₀ c e c' := by
  have hs := hl.sound
  have hs₁ := (hs.advance 1).sound
  have hread := operandRule_spec hf.reliable hs
  refine hread.and ?_
  refine Spec.get_bind ?_
  extract_lets start next jp
  have hjp : ∀ u c₁, c₁.Sound → Spec (jp u) c₁ (Told c₀ c) := by
    intro u c₁ hs₁
    refine Spec.sliceFrom_bind (Spec.bind (hf.reliable.operand c₁ hs₁) fun inner c₂ hl₂ _ => ?_)
    exact Spec.sliceFrom_bind (Spec.pure hl₂.sound (.of_plain rfl (.of_source rfl)))
  refine Spec.ite (fun _ => Spec.skip_bind hs (Spec.ite (fun hm => ?_) fun _ => hjp () _ hs₁)) fun _ =>
    Spec.ite (fun _ => ?_) fun _ => Spec.ite (fun _ => ?_) fun _ => ?_
  · simp only [Bool.and_eq_true] at hm
    obtain ⟨hk, m, hhead, hmark⟩ := Token.mark_of_isMark hm.1.2
    rw [show next = (c.advance 1).peek from (c.peek_advance 1 0).symm] at hk hhead
    exact Spec.consumePart_bind hs₁ hk hhead hmark fun _ c₁ hl₁ _ _ _ _ _ => hjp () c₁ hl₁.sound
  · exact Spec.skip_bind hs (Spec.pure hs₁ (.of_plain rfl (.of_source rfl)))
  · refine Spec.skip_bind hs (Spec.bind (hf.reliable.operand _ hs₁) fun inner c₁ hl₁ _ => ?_)
    exact Spec.sliceFrom_bind (Spec.pure hl₁.sound (.of_plain rfl (.of_source rfl)))
  · refine Spec.bind ((primary_spec hf.reliable hs).and (primary_told hf hl)) fun base c₁ hl₁ hbase => ?_
    refine (Spec.extend (I := fun e c' => ReadsExpression c e c' ∧ Told c₀ c e c') (fun e c₂ hl₂ ⟨hread, h⟩ => ?_)
      hl₁.sound hbase).mono fun e c' _ (h : ReadsExpression c e c' ∧ Told c₀ c e c') => h.2
    exact suffixStep_told hf hl (hl₁.trans hl₂) hread h

/-- A type in a sequence is one behind a cast or a test. -/
theorem sequenceTail_found : Spec g.sequenceTail c fun o _ =>
    ∀ es ∈ o, ∀ T t, Expression.typeOperand T t ∈ es → Found c₀ T.part := by
  have hs₁ := hl.sound.advance 1
  refine Spec.get_bind ?_
  extract_lets t jp jp'
  have hjp : ∀ link c₁, c.Leads c₁ → (∀ T t, Expression.typeOperand T t ≠ link) →
      Spec (jp link) c₁ fun o _ => ∀ es ∈ o, ∀ T t, Expression.typeOperand T t ∈ es → Found c₀ T.part := by
    intro link c₁ hl₁ hlink
    refine Spec.current_bind (Spec.bind (hf.type c₁ (hl.trans hl₁)) fun target c₂ hl₂ htarget => ?_)
    refine Spec.sliceFrom_bind (Spec.pure hl₂.sound ?_)
    rintro _ ⟨rfl⟩ T text hmem
    rcases List.mem_pair.mp hmem with h | h
    · exact absurd h (hlink T text)
    · obtain ⟨rfl, rfl⟩ := Expression.typeOperand.inj h
      exact htarget
  have hjp' : ∀ link c₁, c.Leads c₁ → (∀ T t, Expression.typeOperand T t ≠ link) →
      Spec (jp' link) c₁ fun o _ => ∀ es ∈ o, ∀ T t, Expression.typeOperand T t ∈ es → Found c₀ T.part := by
    intro link c₁ hl₁ hlink
    refine Spec.bind ((operandRule_spec hf.reliable hl₁.sound).always g.operandRule_isOperand)
      fun operand c₂ hl₂ hoperand => Spec.pure hl₂.sound ?_
    rintro _ ⟨rfl⟩ T text hmem
    rcases List.mem_pair.mp hmem with h | rfl
    · exact absurd h (hlink T text)
    · cases hoperand
  refine Spec.ite (fun _ => Spec.skip_bind hl.sound (Spec.ite (fun _ => ?_) fun _ => ?_)) fun _ =>
    Spec.ite (fun _ => Spec.skip_bind hl.sound (Spec.ite (fun _ => ?_) fun _ => ?_)) fun _ =>
      Spec.pure hl.sound (by simp)
  · refine Spec.bind (castModifier_spec hs₁.sound) fun modifier c₁ hl₁ _ => Spec.sliceFrom_bind ?_
    exact Spec.pure_bind (hjp _ c₁ (hs₁.trans hl₁) (by simp))
  · exact Spec.pure_bind (hjp _ _ hs₁ (by simp))
  · refine Spec.bind (hf.reliable.expression _ hs₁.sound) fun choice c₁ hl₁ _ => ?_
    refine Spec.expect_bind hl₁.sound fun _ => Spec.sliceFrom_bind (Spec.pure_bind ?_)
    exact hjp' _ _ ((hs₁.trans hl₁).trans (hl₁.sound.advance 1)) (by simp)
  · exact Spec.pure_bind (hjp' _ _ hs₁ (by simp))

theorem expressionRule_found : Spec g.expressionRule c fun e _ => ∀ x ∈ e.parts, Found c₀ x := by
  refine Spec.current_bind (Spec.bind ((operandRule_told hf hl).and
    ((operandRule_spec hf.reliable hl.sound).always g.operandRule_isOperand)) fun first c₁ hl₁ ⟨⟨hread, htold⟩, hop⟩ => ?_)
  have hfirst := htold.found hl hl₁ hread
  have hl₁ := hl.trans hl₁
  refine Spec.bind (Spec.collect (I := fun ess _ => ∀ es ∈ ess, ∀ T t, Expression.typeOperand T t ∈ es →
      Found c₀ T.part) (Q := fun ess _ => ∀ es ∈ ess, ∀ T t, Expression.typeOperand T t ∈ es → Found c₀ T.part)
    (fun ess c₂ hl₂ hi => ?_) hl₁.sound (by simp)) fun ess c₂ hl₂ hess => ?_
  · refine (sequenceTail_found hf (hl₁.trans hl₂)).mono fun o c₃ hl₃ hsome => ⟨?_, fun _ => hi⟩
    rintro es rfl
    simpa [or_imp, forall_and] using ⟨hi, hsome es rfl⟩
  · refine Spec.ite (fun _ => Spec.pure hl₂.sound hfirst) fun _ => Spec.sliceFrom_bind
      (Spec.pure hl₂.sound fun x hx => ?_)
    obtain ⟨T, hT, rfl⟩ : ∃ T ∈ Signature.castType? (first :: ess.flatten), T.part = x := by
      simpa [Expression.parts] using hx
    obtain ⟨t, ht⟩ := Signature.exists_castType? hT
    rcases List.mem_cons.mp ht with rfl | ht
    · cases hop
    · obtain ⟨es, hes, hmem⟩ := List.mem_flatten.mp ht
      exact hess es hes T t hmem

end Operands

theorem upTo_gathers (hc₀ : c₀.Reached) (m : Nat) : (upTo m).Gathers c₀ := by
  induction m with
  | zero =>
    exact ⟨hc₀, ⟨0, rfl⟩, upTo_reliable 0, fun _ hl => .stall hl.sound, fun _ hl => .stall hl.sound⟩
  | succ m ih =>
    refine ⟨hc₀, ⟨m + 1, rfl⟩, upTo_reliable (m + 1), fun c hl => ?_, fun c hl => expressionRule_found ih hl⟩
    have hspec := (upTo_reliable (m + 1)).type c hl.sound
    refine hspec.answers fun T c' hT => ?_
    cases T with
    | raw t =>
      obtain ⟨hl', hread⟩ := hspec.ok hT
      exact hread.trim_ne_nil hl' hl.sound
    | _ => exact ⟨m + 1, c, c', hl, hT⟩

section Declarations

/-- The parts of what is annotated and of what is assigned, if it could be read. -/
structure Sourced (c₀ : Cursor) (type : Option TypeTree) (initializer : Option Expression) : Prop where
  type : ∀ T ∈ type, (∃ t, T = .raw t) ∨ Found c₀ T.part
  initializer : ∀ e ∈ initializer, (∃ t, e = .raw t) ∨ ∀ x ∈ e.parts, Found c₀ x

theorem Sourced.property {b : Binding} (h : Sourced c₀ b.type b.initializer) {v : Variable} {p : Property}
    (hp : Property.ofBinding? v b = some p) : Sourced c₀ p.type p.initializer := by
  obtain ⟨name, -, rfl⟩ := Option.map_eq_some_iff.mp hp
  exact h

/-- What cannot be read stands for itself. -/
theorem orRest_found {α : Type} {P : α → Prop} {p : Parser α} {raw : Text → α}
    (hp : Spec p c fun a _ => P a) (hraw : ∀ t, P (raw t)) : Spec (orRest p raw) c fun a _ => P a := by
  refine Spec.current_bind (Spec.bind (Spec.attempt hp) fun o c₁ hl₁ ho => ?_)
  cases o with
  | some a => exact Spec.pure hl₁.sound (ho.1 a rfl)
  | none =>
    exact Spec.get_bind (Spec.skip_bind hl₁.sound (Spec.sliceFrom_bind (Spec.pure (hl₁.sound.advance _).sound (hraw _))))

section Members

variable (hf : g.Gathers c₀) (hl : c₀.Leads c)
include hf hl

theorem bindingRule_found : Spec g.bindingRule c fun b _ => Sourced c₀ b.type b.initializer := by
  refine Spec.current_bind ?_
  extract_lets jp
  have hjp : ∀ name c₁, c.Leads c₁ → Spec (jp name) c₁ fun b _ => Sourced c₀ b.type b.initializer := by
    intro name c₁ hl₁
    have hl₁ := hl.trans hl₁
    refine Spec.sliceFrom_bind (Spec.current_bind ?_)
    extract_lets jp
    have hjp : ∀ (type : Option TypeTree) c₂, c₁.Leads c₂ → (∀ T ∈ type, (∃ t, T = .raw t) ∨ Found c₀ T.part) →
        Spec (jp type) c₂ fun b _ => Sourced c₀ b.type b.initializer := by
      intro type c₂ hl₂ htype
      have hl₂ := hl₁.trans hl₂
      refine Spec.current_bind ?_
      extract_lets jp
      have hjp : ∀ (initializer : Option Expression) c₃, c₂.Leads c₃ →
          (∀ e ∈ initializer, (∃ t, e = .raw t) ∨ ∀ x ∈ e.parts, Found c₀ x) → Spec (jp initializer) c₃ fun b _ => Sourced c₀ b.type b.initializer := by
        intro initializer c₃ hl₃ hinitializer
        refine Spec.current_bind (Spec.ite (fun _ => ?_) fun _ => ?_)
        · refine Spec.bind (Spec.skipBalanced hl₃.sound) fun _ c₄ hl₄ _ => Spec.sliceFrom_bind ?_
          exact Spec.pure_bind (Spec.sliceFrom_bind (Spec.pure hl₄.sound ⟨htype, hinitializer⟩))
        · exact Spec.pure_bind (Spec.sliceFrom_bind (Spec.pure hl₃.sound ⟨htype, hinitializer⟩))
      refine Spec.ite (fun _ => ?_) fun _ => Spec.pure_bind (hjp none c₂ hl₂.sound.refl (by simp))
      have hs₃ := hl₂.sound.advance 1
      refine Spec.skip_bind hl₂.sound (Spec.bind (orRest_found (P := fun e => (∃ t, e = .raw t) ∨
        ∀ x ∈ e.parts, Found c₀ x) ((hf.expression _ (hl₂.trans hs₃)).mono fun _ _ _ => .inr)
        fun t => .inl ⟨t, rfl⟩) fun e c₃ hl₃ he => Spec.pure_bind ?_)
      exact hjp (some e) c₃ (hs₃.trans hl₃) (by simpa using he)
    refine Spec.ite (fun _ => ?_) fun _ => Spec.pure_bind (hjp none c₁ hl₁.sound.refl (by simp))
    have hs₂ := hl₁.sound.advance 1
    refine Spec.skip_bind hl₁.sound (Spec.bind (orRest_found (P := fun T => (∃ t, T = .raw t) ∨ Found c₀ T.part)
      ((hf.type _ (hl₁.trans hs₂)).mono fun _ _ _ => .inr) fun t => .inl ⟨t, rfl⟩)
      fun T c₂ hl₂ hT => Spec.pure_bind ?_)
    exact hjp (some T) c₂ (hs₂.trans hl₂) (by simpa using hT)
  refine Spec.ite (fun _ => Spec.consume_bind hl.sound (Spec.pure_bind (hjp _ _ (hl.sound.advance 1)))) fun _ =>
    Spec.ite (fun _ => ?_) fun _ => Spec.bind (Spec.fail hl.sound) (Q := fun _ _ => False) fun _ _ _ h => h.elim
  exact Spec.bind (Spec.skipBalanced hl.sound) fun _ c₁ hl₁ _ => Spec.pure_bind (hjp none c₁ hl₁)

theorem memberRule_found : Spec g.memberRule c fun m _ => ∀ p ∈ m.properties, Sourced c₀ p.type p.initializer := by
  refine Spec.current_bind (Spec.bind (attributesRule_spec hf.reliable hl.sound) fun as c₁ hl₁ _ => ?_)
  refine Spec.bind (modifiersRule_spec hf.reliable hl₁.sound) fun ms c₂ hl₂ _ => Spec.current_bind ?_
  have hl₂ := (hl.trans hl₁).trans hl₂
  refine Spec.ite (fun _ => ?_) fun _ => ?_
  · have hl₃ := hl₂.trans (hl₂.sound.advance 1)
    refine Spec.skip_bind hl₂.sound (Spec.bind (Spec.separated
      (I := fun (bs : List Binding) _ => ∀ b ∈ bs, Sourced c₀ b.type b.initializer) ?_ fun bs c₄ hl₄ hbs _ => ?_)
      fun bs c₄ hl₄ hbs => Spec.sliceFrom_bind (Spec.pure hl₄.sound fun p hp => ?_))
    · exact (bindingRule_found hf hl₃).mono fun _ _ _ h => by simpa using h
    · refine (bindingRule_found hf ((hl₃.trans hl₄).trans (hl₄.sound.advance 1))).mono fun b _ _ hb => ?_
      simpa [or_imp, forall_and] using ⟨hbs, hb⟩
    · obtain ⟨b, hb, hp⟩ := List.mem_filterMap.mp hp
      exact (hbs b hb).property hp
  · refine Spec.get_bind (Spec.skip_bind hl₂.sound (Spec.get_bind (Spec.pure (hl₂.sound.advance _).sound ?_)))
    simp [Member.properties]

theorem memberBlockRule_found : Spec g.memberBlockRule c fun b _ =>
    ∀ m ∈ b.members, ∀ p ∈ m.properties, Sourced c₀ p.type p.initializer := by
  have hl₁ := hl.trans (hl.sound.advance 1)
  refine Spec.expect_bind hl.sound fun _ => ?_
  refine Spec.bind (Spec.collect (I := fun (mss : List (List Member)) _ => ∀ ms ∈ mss, ∀ m ∈ ms,
      ∀ p ∈ m.properties, Sourced c₀ p.type p.initializer) (Q := fun mss _ => ∀ ms ∈ mss, ∀ m ∈ ms,
      ∀ p ∈ m.properties, Sourced c₀ p.type p.initializer) (fun mss c₂ hl₂ hi => Spec.get_bind ?_) hl₁.sound (by simp))
    fun mss c₂ hl₂ hmss => ?_
  · refine Spec.ite (fun _ => Spec.pure hl₂.sound ⟨by simp, fun _ => hi⟩) fun _ =>
      Spec.ite (fun _ => Spec.fail hl₂.sound) fun _ => Spec.ite (fun _ => ?_) fun _ => ?_
    · refine Spec.skip_bind hl₂.sound (Spec.pure (hl₂.sound.advance 1).sound ⟨?_, by simp⟩)
      rintro _ ⟨rfl⟩
      simpa [or_imp, forall_and] using hi
    · refine Spec.bind (memberRule_found hf (hl₁.trans hl₂)) fun m c₃ hl₃ hm => Spec.get_bind ?_
      have hsome : ∀ ms, some [m] = some ms → ∀ ns ∈ mss ++ [ms], ∀ n ∈ ns, ∀ p ∈ n.properties,
          Sourced c₀ p.type p.initializer := by
        rintro _ ⟨rfl⟩ ns hns n hn
        rcases List.mem_append.mp hns with hns | hns
        · exact hi ns hns n hn
        · obtain rfl := List.mem_singleton.mp hns
          obtain rfl := List.mem_singleton.mp hn
          exact hm
      refine Spec.ite (fun _ => ?_) fun _ => Spec.pure hl₃.sound ⟨hsome, by simp⟩
      exact Spec.skip_bind hl₃.sound (Spec.pure (hl₃.sound.advance 1).sound ⟨hsome, by simp⟩)
  · refine Spec.expect_bind hl₂.sound fun _ => Spec.sliceFrom_bind (Spec.pure (hl₂.sound.advance 1).sound ?_)
    intro m hm
    obtain ⟨ms, hms, hm⟩ := List.mem_flatten.mp hm
    exact hmss ms hms m hm

/-- All properties of a type declaration have been read, or stand for themselves. -/
theorem declarationRule_found : Spec g.declarationRule c fun d _ => ∀ t, d = .group t →
    ∀ m ∈ t.block.members, ∀ p ∈ m.properties, Sourced c₀ p.type p.initializer := by
  have hr := hf.reliable
  refine Spec.current_bind (Spec.bind (attributesRule_spec hr hl.sound) fun as c₁ hl₁ _ => ?_)
  refine Spec.bind (modifiersRule_spec hr hl₁.sound) fun ms c₂ hl₂ _ => Spec.current_bind ?_
  have hl₂ := (hl.trans hl₁).trans hl₂
  refine Spec.ite (fun _ => ?_) fun _ => ?_
  · have hl₃ := hl₂.sound.advance 1
    refine Spec.bind (p := g.groupBody _ as ms) (Q := fun t _ => ∀ m ∈ t.block.members, ∀ p ∈ m.properties,
      Sourced c₀ p.type p.initializer) ?_ fun t c₄ hl₄ hfound => Spec.pure hl₄.sound ?_
    · refine Spec.consume_bind hl₂.sound (Spec.current_bind ?_)
      extract_lets jp
      refine Spec.ite (fun _ => Spec.bind (Spec.fail hl₃.sound) (Q := fun _ _ => False)
        fun _ _ _ h => h.elim) fun _ => Spec.consume_bind hl₃.sound ?_
      have hl₄ := hl₃.trans (hl₃.sound.advance 1)
      refine Spec.bind (groupHeader_spec hl₄.sound) fun _ c₅ hl₅ _ => ?_
      refine Spec.bind (memberBlockRule_found hf ((hl₂.trans hl₄).trans hl₅)) fun b c₆ hl₆ hb => ?_
      exact Spec.sliceFrom_bind (Spec.pure hl₆.sound hb)
    · rintro _ ⟨rfl⟩
      exact hfound
  · refine Spec.bind (memberBody_spec hr hl₂.sound) fun m c₃ hl₃ _ => Spec.pure hl₃.sound ?_
    rintro _ ⟨⟩

end Members

end Declarations

section Read

variable {m : Nat} {c' : Cursor} {T : TypeTree}

/-- A type that opens no brace is one in a signature as well. -/
theorem signed_of_read (hc : c.Reached) (h : (upTo m).type c = .ok T c') (hb : Signature.braces T.text = 0) :
    Signed T.signature := by
  cases m with
  | zero => cases h
  | succ m =>
    obtain ⟨hl, hread⟩ := (typeRule_spec (upTo_reliable m) hc.sound).ok h
    obtain ⟨W, hW⟩ := hc.taken hl
    have hnone := unbraced_of_text hc (kind_of_typeRule h) hl hW (hread.text ▸ hb)
    obtain ⟨V, hV⟩ := IsType.of_unbraced hc h hW hnone
    -- the text of the type is a source without opening braces
    obtain ⟨c₁, c₂, hc₁, hT, -⟩ := of_runOn_whole (runOn_isType hV)
    exact Signature.IsSignature.signed
      (upTo_signature (c₁.room + 2) _ T _ (Signature.braceless_ofText hc₁ hb) hT).2.2

theorem typeSuffixes_signature {start : Token} {base : TypeTree} (h : base.signature ≠ []) :
    Always (typeSuffixes start base) fun T => T.signature ≠ [] := by
  rw [typeSuffixes_eq]
  refine .extend h fun T hT c o c' ho T' hT' => ?_
  obtain rfl := Option.mem_def.mp hT'
  rcases ite_eq_ok.mp (get_bind_eq_ok.mp ho) with ⟨-, ho⟩ | ⟨-, ho⟩
  · rw [consumePart_bind_eq_ok, sliceFrom_bind_eq_ok, pure_eq_ok] at ho
    obtain rfl := Option.some.inj ho.1
    split
    · exact List.append_ne_nil_of_right_ne_nil _ (List.cons_ne_nil _ _)
    · cases T with
      | tuple | function => exact List.append_ne_nil_of_left_ne_nil (by decide) _
      | _ => exact hT
  rcases ite_eq_ok.mp ho with ⟨-, ho⟩ | ⟨-, ho⟩
  · rw [skip_bind_eq_ok, sliceFrom_bind_eq_ok, pure_eq_ok] at ho
    obtain rfl := Option.some.inj ho.1
    exact List.append_ne_nil_of_right_ne_nil _ (List.cons_ne_nil _ _)
  · cases (pure_eq_ok.mp ho).1

theorem simpleType_signature (hc : c.Reached) (h : (upTo m).simpleType c = .ok T c') : T.signature ≠ [] := by
  obtain ⟨hl, hread⟩ := (simpleType_spec (upTo_reliable m) hc.sound).ok h
  have htext := hread.trim_ne_nil hl hc.sound
  rcases ite_eq_ok.mp (current_bind_eq_ok.mp h) with ⟨-, h⟩ | ⟨-, h⟩
  · obtain ⟨es, c₁, -, h⟩ := of_bind_ok (current_bind_eq_ok.mp h)
    obtain ⟨fx, c₂, -, h⟩ := of_bind_ok h
    rcases ite_eq_ok.mp (current_bind_eq_ok.mp h) with ⟨-, h⟩ | ⟨-, h⟩
    · obtain ⟨R, c₃, -, h⟩ := of_bind_ok (skip_bind_eq_ok.mp h)
      rw [sliceFrom_bind_eq_ok, pure_eq_ok] at h
      obtain ⟨rfl, -⟩ := h
      exact htext
    · rcases ite_eq_ok.mp h with ⟨-, h⟩ | ⟨-, h⟩
      · cases h
      · rw [sliceFrom_bind_eq_ok, pure_eq_ok] at h
        obtain ⟨rfl, -⟩ := h
        exact List.cons_ne_nil _ _
  rcases ite_eq_ok.mp h with ⟨-, h⟩ | ⟨-, h⟩
  · obtain ⟨E, c₁, -, h⟩ := of_bind_ok (consume_bind_eq_ok.mp h)
    rcases ite_eq_ok.mp (current_bind_eq_ok.mp h) with ⟨-, h⟩ | ⟨-, h⟩
    · obtain ⟨R, c₂, -, h⟩ := of_bind_ok (skip_bind_eq_ok.mp h)
      obtain ⟨-, h⟩ := expect_bind_eq_ok.mp h
      rw [sliceFrom_bind_eq_ok, pure_eq_ok] at h
      obtain ⟨rfl, -⟩ := h
      exact List.cons_ne_nil _ _
    · obtain ⟨-, h⟩ := expect_bind_eq_ok.mp h
      rw [sliceFrom_bind_eq_ok, pure_eq_ok] at h
      obtain ⟨rfl, -⟩ := h
      exact List.cons_ne_nil _ _
  rcases ite_eq_ok.mp h with ⟨hk, h⟩ | ⟨-, h⟩
  · rw [(namedType_signature (upTo_reliable m) hc (by simpa using hk) h).1]
    exact fun hnil => htext (by rw [hnil]; rfl)
  · cases h

theorem constraintRule_signature (hc : c.Reached) (h : (upTo m).constraintRule c = .ok T c') : T.signature ≠ [] := by
  obtain ⟨hl, hread⟩ := (constraintRule_spec (upTo_reliable m) hc.sound).ok h
  have htext := hread.trim_ne_nil hl hc.sound
  rcases ite_eq_ok.mp (get_bind_eq_ok.mp h) with ⟨-, h⟩ | ⟨-, h⟩
  · obtain ⟨as, c₁, -, h⟩ := of_bind_ok h
    obtain ⟨B, c₂, -, h⟩ := of_bind_ok h
    rw [sliceFrom_bind_eq_ok, pure_eq_ok] at h
    obtain ⟨rfl, -⟩ := h
    exact htext
  rcases ite_eq_ok.mp h with ⟨-, h⟩ | ⟨-, h⟩
  · obtain ⟨B, c₂, -, h⟩ := of_bind_ok (skip_bind_eq_ok.mp h)
    rw [sliceFrom_bind_eq_ok, pure_eq_ok] at h
    obtain ⟨rfl, -⟩ := h
    exact htext
  · obtain ⟨base, c₁, hbase, h⟩ := of_bind_ok h
    exact typeSuffixes_signature (simpleType_signature hc hbase) _ _ _ h

/-- The signature of a type that has been read is not empty. -/
theorem signature_ne_nil (hc : c.Reached) (h : (upTo m).type c = .ok T c') : T.signature ≠ [] := by
  cases m with
  | zero => cases h
  | succ m =>
    obtain ⟨hl, hread⟩ := (typeRule_spec (upTo_reliable m) hc.sound).ok h
    obtain ⟨first, c₁, hfirst, h⟩ := of_bind_ok (current_bind_eq_ok.mp h)
    obtain ⟨others, c₂, -, h⟩ := of_bind_ok h
    rcases ite_eq_ok.mp h with ⟨-, h⟩ | ⟨-, h⟩
    · obtain ⟨rfl, -⟩ := pure_eq_ok.mp h
      exact constraintRule_signature hc hfirst
    · rw [sliceFrom_bind_eq_ok, pure_eq_ok] at h
      obtain ⟨rfl, -⟩ := h
      exact hread.trim_ne_nil hl hc.sound

/-- A part that has been found is a type in a signature if it is one by itself. -/
theorem Found.signed (hc₀ : c₀.Reached) {x : Ingredient} (h : Found c₀ x) (ht : x.isTyped = true) : x.Signed := by
  cases x with
  | type T =>
    obtain ⟨m, c, c', hl, hread⟩ := h
    exact signed_of_read (hc₀.lead hl) hread (by simpa [Ingredient.isTyped] using ht)
  | source e =>
    simp only [Ingredient.isTyped, Bool.or_eq_true, Bool.and_eq_true, beq_iff_eq] at ht
    rcases ht with ⟨hn, hb⟩ | hplain
    · obtain ⟨c, c', hl, hl', hread, hnominal⟩ := h
      have htrim := hl'.trim_upTo hread.lt hl.sound
      rw [hread.text] at hb
      rw [Ingredient.Signed, hread.text, htrim]
      exact (hnominal hn).signed (hc₀.lead hl) hn hb
    · exact Signature.signed_of_isPlain hplain
  | rest t => exact Signature.signed_of_isPlain ht
  | label l => exact h

/-- No part that has been found is empty. -/
theorem Found.signature_ne_nil (hc₀ : c₀.Reached) {e : Expression} (h : ∀ x ∈ e.parts, Found c₀ x) :
    e.signature ≠ [] := by
  have hsource : ∀ {e'}, Found c₀ (.source e') → Text.trim e'.toText ≠ [] := by
    rintro e' ⟨c, c', hl, hl', hread, -⟩
    rw [hread.text, hl'.trim_upTo hread.lt hl.sound]
    exact hl'.upTo_ne_nil hread.lt
  have hself : e.parts = [.source e] → e.signature = Text.trim e.toText → e.signature ≠ [] := fun hp hsig =>
    hsig ▸ hsource (h _ (hp ▸ List.mem_singleton_self _))
  cases e with
  | sequence es t =>
    cases hT : Signature.castType? es with
    | none => simp [Expression.signature, hT]
    | some T =>
      have hT' : Found c₀ T.part := h _ (by simp [Expression.parts, hT])
      rw [Expression.signature, hT]
      cases T with
      | raw t => exact hT'
      | _ =>
        obtain ⟨m, c, c', hl, hread⟩ := hT'
        exact Grammar.signature_ne_nil (hc₀.lead hl) hread
  | integer | float | string | boolean | nilLiteral | keyPath =>
    rw [Expression.signature]
    decide
  | closure k =>
    rw [Expression.signature]
    exact List.append_ne_nil_of_left_ne_nil (List.append_ne_nil_of_left_ne_nil
      (List.append_ne_nil_of_left_ne_nil (by decide) _) _) _
  | array | dictionary | tuple =>
    rw [Expression.signature]
    exact List.cons_ne_nil _ _
  | call called as k parens t =>
    rw [Expression.signature]
    exact hsource (h (.source called) (by simp [Expression.parts]))
  | _ => exact hself rfl rfl

variable {p : Property} {s : Text}

/-- The signature of a property is empty exactly if nothing is written where it is read off. -/
theorem Sourced.signature_eq_nil (hc₀ : c₀.Reached) (h : Sourced c₀ p.type p.initializer)
    (hs : p.signature? = some s) : s = [] ↔ p.isBlank = true := by
  obtain ⟨htype, hinit⟩ := h
  rw [Property.signature?] at hs
  rw [Property.isBlank]
  cases hT : p.type with
  | some T =>
    obtain rfl : T.signature = s := by simpa [hT] using hs
    rcases htype T hT with ⟨t, rfl⟩ | hfound
    · exact List.isEmpty_iff.symm
    cases T with
    | raw t => exact List.isEmpty_iff.symm
    | _ =>
      obtain ⟨m, c, c', hl, hread⟩ := hfound
      simpa using Grammar.signature_ne_nil (hc₀.lead hl) hread
  | none =>
    obtain ⟨e, he, rfl⟩ : ∃ e, p.initializer = some e ∧ e.signature = s := by simpa [hT] using hs
    rcases hinit e he with ⟨t, rfl⟩ | hfound
    · rw [he]
      exact List.isEmpty_iff.symm
    cases e with
    | raw t =>
      rw [he]
      exact List.isEmpty_iff.symm
    | _ => simpa [he] using Found.signature_ne_nil hc₀ hfound

/-- The signature of a property is a type if its parts are types by themselves. -/
theorem Sourced.signed (hc₀ : c₀.Reached) (h : Sourced c₀ p.type p.initializer)
    (hp : p.parts.all (·.isTyped) = true) (hs : p.signature? = some s) : Signed s := by
  have hraw : ∀ t, (Ingredient.source (.raw t)).isTyped = true → Signed (Text.trim t) := fun t ht =>
    Signature.signed_of_isPlain (by simpa [Ingredient.isTyped, Expression.isNominal, Expression.toText] using ht)
  rw [List.all_eq_true] at hp
  refine Property.signed (fun x hx => ?_) hs
  have ht := hp x hx
  rw [Property.parts] at hx
  split at hx
  next T hT =>
    obtain rfl := List.mem_singleton.mp hx
    rcases h.type T hT with ⟨t, rfl⟩ | hfound
    · exact Signature.signed_of_isPlain ht
    · exact hfound.signed hc₀ ht
  next e _ he =>
    rcases h.initializer e he with ⟨t, rfl⟩ | hfound
    · obtain rfl := List.mem_singleton.mp hx
      exact hraw t ht
    · exact (hfound x hx).signed hc₀ ht
  next => cases hx

end Read

end Grammar

/-- A setter is made for a property, and has its signature. -/
theorem Group.exists_candidate {d : Group} {l : SetterList} {s : Setter} (hl : d.setters = .ok l)
    (hs : s ∈ l.setters) : ∃ p ∈ d.candidates, p.name = s.name ∧ p.signature? = some s.signature := by
  cases hk : d.composite with
  | error e =>
    rw [Group.setters, hk] at hl
    cases hl
  | ok kind =>
    rw [Group.setters, hk, eligibleProperties_eq hk] at hl
    cases hl
    obtain ⟨p, hp, hsig⟩ := List.mem_filterMap.mp (List.mem_of_mem_filter hs)
    obtain ⟨u, hu, rfl⟩ := Option.map_eq_some_iff.mp hsig
    exact ⟨p, hp, rfl, hu⟩

namespace Parser

variable {t : Text} {d : Group}

/-- Each setter is that of a property, and has its signature. That is empty exactly if nothing is written
where it is read off, and a type if all parts of it are types by themselves. -/
theorem setters_typed {l : SetterList} {s : Setter} (h : runOn group t = .ok d) (hl : d.setters = .ok l)
    (hs : s ∈ l.setters) : ∃ p ∈ d.candidates, p.name = s.name ∧ p.signature? = some s.signature ∧
      (s.signature = [] ↔ p.isBlank = true) ∧
      (p.parts.all (·.isTyped) = true → ∃ T, runOn (whole type) s.signature = .ok T) := by
  obtain ⟨p, hp, hname, hsig⟩ := Group.exists_candidate hl hs
  obtain ⟨c, c', hc, hgroup⟩ := runOn_eq_ok.mp h
  have hreached := Cursor.reached_ofText hc
  obtain ⟨-, hfound⟩ := (Grammar.declarationRule_found (Grammar.upTo_gathers hreached _)
    hreached.sound.refl).ok (group_eq_ok.mp hgroup)
  obtain ⟨m, hm, hmem⟩ := List.mem_flatMap.mp (List.mem_of_mem_filter hp)
  have hsourced := hfound d rfl m hm p hmem
  refine ⟨p, hp, hname, hsig, hsourced.signature_eq_nil hreached hsig, fun htyped => ?_⟩
  obtain ⟨T, V, hT⟩ := hsourced.signed hreached htyped hsig
  exact ⟨T, runOn_isType hT⟩

theorem setters_typed_struct : ∃ d l, runOn group
      "struct A \x7b func f() \x7b \x7d\nvar a: (Int, b: T)!; var c = [\"k\": (1, l: Foo<Int>.Bar())], d = x as? U \x7d".toList = .ok d ∧
    d.setters = .ok l ∧ l.setters.map Setter.signature = ["@escaping (Int, b: T)".toList,
      "[String: (Int, l: Foo<Int>.Bar)]".toList, "U".toList] ∧
    ∀ s ∈ l.setters, s.signature ≠ [] ∧ ∃ T, runOn (whole type) s.signature = .ok T := by
  have hread : ((runOn group
      "struct A \x7b func f() \x7b \x7d\nvar a: (Int, b: T)!; var c = [\"k\": (1, l: Foo<Int>.Bar())], d = x as? U \x7d".toList).toOption.map
        fun d => (d.setters.toOption.map fun l => l.setters.map Setter.signature, d.candidates.all fun p =>
          p.isBlank == false && p.parts.all (·.isTyped))) = some (some ["@escaping (Int, b: T)".toList,
        "[String: (Int, l: Foo<Int>.Bar)]".toList, "U".toList], true) := by
    decide +kernel
  cases hd : runOn group
      "struct A \x7b func f() \x7b \x7d\nvar a: (Int, b: T)!; var c = [\"k\": (1, l: Foo<Int>.Bar())], d = x as? U \x7d".toList with
  | error e =>
    rw [hd] at hread
    cases hread
  | ok d =>
    rw [hd] at hread
    obtain ⟨hl, htyped⟩ := Prod.mk.inj (Option.some.inj hread)
    cases hsetters : d.setters with
    | error e =>
      rw [hsetters] at hl
      cases hl
    | ok l =>
      rw [hsetters] at hl
      refine ⟨d, l, rfl, hsetters, Option.some.inj hl, fun s hs => ?_⟩
      obtain ⟨p, hp, -, -, hblank, hsigned⟩ := setters_typed hd hsetters hs
      have hp := List.all_eq_true.mp htyped p hp
      simp only [Bool.and_eq_true, beq_iff_eq] at hp
      exact ⟨fun hnil => Bool.false_ne_true (hp.1.symm.trans (hblank.mp hnil)), hsigned hp.2⟩

/-- Neither a signed literal nor an annotation that is missing is a type. -/
theorem setters_untyped : ["struct A \x7b var x = -1 \x7d", "struct A \x7b var x: \x7d"].map (fun t =>
      (runOn group t.toList).toOption.bind fun d => d.setters.toOption.map fun l => l.setters.map fun s =>
        (s.signature, (runOn (whole type) s.signature).toOption.isSome)) =
    [some [("-1".toList, false)], some [([], false)]] := by
  decide +kernel

end Parser

end SwiftMacros
