import Mathlib
import SwiftMacros.Proofs.Parser.Answers
import SwiftMacros.Proofs.Tree.Verbatim
import SwiftMacros.Grammar.Closed
import SwiftMacros.Setter.Signature

/-! Operator sequences. Behind its first operand a sequence holds links: an operator, cast, test or
ternary with the operand or type it is followed by. The first cast among them tells the signature, so a
chain of casts does not tell the type that it ends with unless it begins with the same. -/

namespace SwiftMacros

/-- An operator of a sequence and what follows it there. -/
inductive Link where
  | cast (modifier text : Text) (type : TypeTree) (typeText : Text)
  | test (text : Text) (type : TypeTree) (typeText : Text)
  | ternary (choice : Expression) (text : Text) (operand : Expression)
  | binary (text : Text) (operand : Expression)

/-- An expression that can stand beside an operator. -/
def Expression.isOperand : Expression → Bool
  | .operator _ | .cast _ _ | .typeTest _ | .ternary _ _ | .typeOperand _ _ | .sequence _ _ => false
  | _ => true

namespace Link

/-- The two elements of a sequence that a link is kept as. -/
def elements : Link → List Expression
  | cast modifier text type typeText => [.cast modifier text, .typeOperand type typeText]
  | test text type typeText => [.typeTest text, .typeOperand type typeText]
  | ternary choice text operand => [.ternary choice text, operand]
  | binary text operand => [.operator text, operand]

def castType? : Link → Option TypeTree
  | cast _ _ type _ => some type
  | _ => none

def operand? : Link → Option Expression
  | ternary _ _ operand | binary _ operand => some operand
  | _ => none

end Link

namespace Signature

theorem castType?_operand {e : Expression} (he : e.isOperand = true) (es : List Expression) :
    castType? (e :: es) = castType? es := by
  cases e <;> first | rfl | cases he

/-- The cast that counts is the first of the links that is one. -/
theorem castType?_links {links : List Link}
    (hlinks : ∀ l ∈ links, ∀ e ∈ l.operand?, e.isOperand = true) :
    castType? (links.flatMap Link.elements) = (links.filterMap Link.castType?).head? := by
  induction links with
  | nil => rfl
  | cons l links ih =>
    have hrest := ih fun l' h' => hlinks l' (List.mem_cons_of_mem _ h')
    have hop := hlinks l List.mem_cons_self
    rw [List.flatMap_cons]
    cases l with
    | cast m t T u => rfl
    | test t T u => exact hrest
    | ternary e t o => exact (castType?_operand (hop o rfl) _).trans hrest
    | binary t o => exact (castType?_operand (hop o rfl) _).trans hrest

end Signature

namespace Parser

variable {α β σ : Type}

/-- Every answer of `p` satisfies `Q`, from whatever cursor it is read. -/
def Always (p : Parser α) (Q : α → Prop) : Prop := ∀ c a c', p c = .ok a c' → Q a

namespace Always

variable {p q : Parser α} {f : α → Parser β} {Q : α → Prop} {R : β → Prop}

theorem pure {a : α} (h : Q a) : Always (Pure.pure a) Q := by
  rintro c a' c' ha
  obtain ⟨rfl, -⟩ := pure_eq_ok.mp ha
  exact h

theorem fail {w : Wanted} : Always (Parser.fail w) Q := fun _ _ _ h => (by cases h)

theorem bind (hp : Always p Q) (hf : ∀ a, Q a → Always (f a) R) : Always (p >>= f) R := by
  intro c b c' h
  obtain ⟨a, c₁, ha, hb⟩ := bind_eq_ok.mp h
  exact hf a (hp _ _ _ ha) _ _ _ hb

/-- What is read before says nothing of the answer. -/
theorem behind (hf : ∀ a, Always (f a) R) : Always (p >>= f) R :=
  bind (Q := fun _ => True) (fun _ _ _ _ => trivial) fun a _ => hf a

theorem ite {P : Prop} [Decidable P] (hp : Always p Q) (hq : Always q Q) :
    Always (if P then p else q) Q := by
  split
  · exact hp
  · exact hq

theorem collect {item : Parser (Option α)} (h : Always item fun o => ∀ a ∈ o, Q a) :
    Always (collect item) fun as => ∀ a ∈ as, Q a := by
  intro c as c' has
  have hrounds := (collect_eq_ok.mp has).1
  clear has
  induction hrounds with
  | stop _ => simp
  | round ho _ ih => exact List.forall_mem_cons.mpr ⟨h _ _ _ ho _ rfl, ih⟩

theorem extend {step : σ → Parser (Option σ)} {Q : σ → Prop} {s : σ} (hs : Q s)
    (h : ∀ s, Q s → Always (step s) fun o => ∀ s' ∈ o, Q s') : Always (extend step s) Q := by
  intro c s' c' he
  obtain ⟨n, -, hsteps⟩ := extend_eq_ok.mp he
  clear he
  induction hsteps with
  | stop _ => exact hs
  | step ho _ ih => exact ih (h _ hs _ _ _ ho _ rfl)

end Always

end Parser

namespace Grammar

open SwiftMacros.Parser

variable (g : Grammar)

theorem nameExpression_isOperand : Always g.nameExpression fun e => e.isOperand = true := by
  refine .behind fun t => .behind fun c => .ite (.behind fun o => ?_) (.pure rfl)
  cases o with
  | none => exact .pure rfl
  | some clause => exact .behind fun x => .pure rfl

theorem wordExpression_isOperand : Always g.wordExpression fun e => e.isOperand = true := by
  refine .behind fun t => .ite (.behind fun _ => .pure rfl) <| .ite (.behind fun _ => .pure rfl) <|
    .ite ?_ g.nameExpression_isOperand
  exact .behind fun _ => .behind fun _ => .behind fun _ => .pure rfl

theorem collectionLiteral_isOperand : Always g.collectionLiteral fun e => e.isOperand = true := by
  refine .behind fun start => .behind fun c => .ite (.behind fun _ => .behind fun _ => .pure rfl) <|
    .ite (.behind fun _ => .behind fun _ => .pure rfl) ?_
  refine .behind fun first => .behind fun t => .ite ?_ ?_
  · exact .behind fun _ => .behind fun _ => .behind fun _ => .behind fun _ => .behind fun _ =>
      .behind fun _ => .pure rfl
  · exact .behind fun _ => .behind fun _ => .behind fun _ => .pure rfl

theorem primary_isOperand : Always g.primary fun e => e.isOperand = true := by
  refine .behind fun c => ?_
  dsimp only
  split
  · exact .behind fun _ => .pure rfl
  · exact .behind fun _ => .pure rfl
  · exact .behind fun _ => .pure rfl
  · exact g.wordExpression_isOperand
  · exact .behind fun _ => .pure rfl
  · exact .behind fun _ => .behind fun _ => .behind fun _ => .pure rfl
  · refine .ite (.behind fun _ => .behind fun _ => .pure rfl) <| .ite g.collectionLiteral_isOperand <|
      .ite (.behind fun _ => .behind fun _ => .pure rfl) <| .ite (.behind fun _ => .pure rfl) .fail

theorem suffixes_isOperand (start : Token) {base : Expression} (h : base.isOperand = true) :
    Always (g.suffixes start base) fun e => e.isOperand = true := by
  refine .extend h fun e he => .behind fun c => ?_
  have hsome : ∀ e : Expression, e.isOperand = true → ∀ e' ∈ some e, e'.isOperand = true := by simp
  refine .ite (.behind fun _ => .behind fun _ => .pure (hsome _ rfl)) <|
    .ite (.behind fun _ => .behind fun _ => .behind fun _ => .pure (hsome _ rfl)) <|
    .ite (.behind fun _ => .behind fun _ => .pure (hsome _ rfl)) <|
    .ite (.behind fun _ => .behind fun _ => .pure (hsome _ rfl)) <|
    .ite (.behind fun _ => .behind fun _ => .pure (hsome _ rfl)) (.pure (by simp))

/-- What is read between two operators is an operand. -/
theorem operandRule_isOperand : Always g.operandRule fun e => e.isOperand = true := by
  refine .behind fun c => .ite ?_ <| .ite (.behind fun _ => .pure rfl) <|
    .ite (.behind fun _ => .behind fun _ => .behind fun _ => .pure rfl) <|
    .bind g.primary_isOperand fun base h => g.suffixes_isOperand _ h
  refine .behind fun _ => .ite (.behind fun _ => ?_) ?_
  · exact .behind fun _ => .behind fun _ => .behind fun _ => .pure rfl
  · exact .behind fun _ => .behind fun _ => .behind fun _ => .pure rfl

/-- One more round of a sequence adds one link. -/
theorem sequenceTail_link : Always g.sequenceTail fun o => ∀ es ∈ o, ∃ l : Link,
    es = l.elements ∧ ∀ e ∈ l.operand?, e.isOperand = true := by
  have htype : ∀ link : Expression, (∀ T u, ∃ l : Link, [link, .typeOperand T u] = l.elements ∧
      ∀ e ∈ l.operand?, e.isOperand = true) →
      Always (do
        let start ← current
        let target ← g.type
        return some [link, .typeOperand target (← sliceFrom start)]) fun o => ∀ es ∈ o, ∃ l : Link,
          es = l.elements ∧ ∀ e ∈ l.operand?, e.isOperand = true := fun link h =>
    .behind fun _ => .behind fun T => .behind fun u => .pure (by simpa using h T u)
  have hoperand : ∀ link : Expression, (∀ e : Expression, e.isOperand = true → ∃ l : Link,
      [link, e] = l.elements ∧ ∀ e ∈ l.operand?, e.isOperand = true) →
      Always (do
        let operand ← g.operandRule
        return some [link, operand]) fun o => ∀ es ∈ o, ∃ l : Link,
          es = l.elements ∧ ∀ e ∈ l.operand?, e.isOperand = true := fun link h =>
    .bind g.operandRule_isOperand fun e he => .pure (by simpa using h e he)
  refine .behind fun c => .ite (.behind fun _ => .ite ?_ ?_) <| .ite (.behind fun _ => .ite ?_ ?_) <|
    .pure (by simp)
  · refine .behind fun m => .behind fun t => ?_
    exact htype _ fun T u => ⟨.cast m t T u, rfl, by simp [Link.operand?]⟩
  · exact htype _ fun T u => ⟨.test _ T u, rfl, by simp [Link.operand?]⟩
  · refine .behind fun e => .behind fun _ => .behind fun t => ?_
    exact hoperand _ fun o ho => ⟨.ternary e t o, rfl, by simpa [Link.operand?] using ho⟩
  · exact hoperand _ fun o ho => ⟨.binary _ o, rfl, by simpa [Link.operand?] using ho⟩

theorem elements_links {ess : List (List Expression)} (h : ∀ es ∈ ess, ∃ l : Link,
    es = l.elements ∧ ∀ e ∈ l.operand?, e.isOperand = true) :
    ∃ links : List Link, ess.flatten = links.flatMap Link.elements ∧ links.length = ess.length ∧
      ∀ l ∈ links, ∀ e ∈ l.operand?, e.isOperand = true := by
  induction ess with
  | nil => exact ⟨[], rfl, rfl, by simp⟩
  | cons es ess ih =>
    obtain ⟨⟨l, rfl, hl⟩, hess⟩ := List.forall_mem_cons.mp h
    obtain ⟨links, hflat, hlen, hlinks⟩ := ih hess
    refine ⟨l :: links, ?_, by simp [hlen], List.forall_mem_cons.mpr ⟨hl, hlinks⟩⟩
    rw [List.flatten_cons, List.flatMap_cons, hflat]

/-- A sequence is an operand with links behind it, one at least. -/
theorem expressionRule_links : Always g.expressionRule fun e => ∀ es text, e = .sequence es text →
    ∃ first links, es = first :: links.flatMap Link.elements ∧ links ≠ [] ∧ first.isOperand = true ∧
      ∀ l ∈ links, ∀ e ∈ l.operand?, e.isOperand = true := by
  refine .behind fun start => .bind g.operandRule_isOperand fun first hfirst =>
    .bind (.collect g.sequenceTail_link) fun ess hess => ?_
  obtain ⟨links, hflat, hlen, hlinks⟩ := elements_links hess
  cases ess with
  | nil =>
    refine .pure ?_
    rintro es text rfl
    cases hfirst
  | cons es ess =>
    refine .behind fun text => .pure ?_
    rintro es' text' ⟨⟩
    exact ⟨first, links, by rw [← hflat], List.ne_nil_of_length_pos (by simp [hlen]), hfirst, hlinks⟩

end Grammar

namespace Parser

/-- The signature of a sequence is that of the type behind its first cast, and `Any` without a cast. It
is therefore that of the type behind the last cast only where the two types have one signature. -/
theorem sequence_signature {s text : Text} {es : List Expression}
    (h : runOn (whole expression) s = .ok (.sequence es text)) :
    ∃ first links, es = first :: links.flatMap Link.elements ∧ links ≠ [] ∧ first.isOperand = true ∧
      (∀ l ∈ links, ∀ e ∈ l.operand?, e.isOperand = true) ∧
      (Expression.sequence es text).signature =
        ((links.filterMap Link.castType?).head?.map TypeTree.signature).getD "Any".toList ∧
      ∀ T ∈ (links.filterMap Link.castType?).head?, ∀ U ∈ (links.filterMap Link.castType?).getLast?,
        ((Expression.sequence es text).signature = U.signature ↔ T.signature = U.signature) := by
  obtain ⟨c, c', -, hread, -⟩ := of_runOn_whole h
  obtain ⟨first, links, rfl, hne, hfirst, hlinks⟩ :=
    Grammar.expressionRule_links _ _ _ _ hread es text rfl
  have hsig : (Expression.sequence (first :: links.flatMap Link.elements) text).signature =
      ((links.filterMap Link.castType?).head?.map TypeTree.signature).getD "Any".toList := by
    rw [Expression.signature, Signature.castType?_operand hfirst, Signature.castType?_links hlinks]
  refine ⟨first, links, rfl, hne, hfirst, hlinks, hsig, fun T hT U _ => ?_⟩
  rw [hsig, Option.mem_def.mp hT, Option.map_some, Option.getD_some]

theorem sequence_signature_casts : ∃ es text,
    runOn (whole expression) "value as Any as! Foo".toList = .ok (.sequence es text) ∧
      ∃ first links, es = first :: links.flatMap Link.elements ∧ links ≠ [] ∧
        (Expression.sequence es text).signature =
          ((links.filterMap Link.castType?).head?.map TypeTree.signature).getD "Any".toList := by
  have hread : ((runOn (whole expression) "value as Any as! Foo".toList).toOption.any fun
      | .sequence _ _ => true
      | _ => false) = true := by decide +kernel
  cases h : runOn (whole expression) "value as Any as! Foo".toList with
  | error e =>
    rw [h] at hread
    cases hread
  | ok e =>
    rw [h] at hread
    cases e with
    | sequence es text =>
      obtain ⟨first, links, hes, hne, -, -, hsig, -⟩ := sequence_signature h
      exact ⟨es, text, rfl, first, links, hes, hne, hsig⟩
    | _ => cases hread

/-- The last cast does not decide. -/
theorem sequence_signature_last :
    ((runOn (whole expression) "value as Any as! Foo".toList).toOption.bind fun
      | .sequence [.reference _ _, .cast _ _, .typeOperand _ _, .cast _ _, .typeOperand T _] _ =>
        some T.signature
      | _ => none) = some "Foo".toList ∧
    (runOn (whole expression) "value as Any as! Foo".toList).toOption.map Expression.signature =
      some "Any".toList := by
  decide +kernel

end Parser

end SwiftMacros
