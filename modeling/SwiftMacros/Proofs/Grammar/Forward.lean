import Mathlib
import SwiftMacros.Proofs.Parser.Forward
import SwiftMacros.Grammar.Closed

/-! The grammar reads forward: each rule is made of parsers that do, and nested parts are read by a
grammar that does. -/

namespace SwiftMacros

open SwiftMacros.Parser

/-- A grammar whose rules read forward. -/
structure Grammar.Forward (g : Grammar) : Prop where
  type : Parser.Forward g.type
  constraint : Parser.Forward g.constraint
  expression : Parser.Forward g.expression
  operand : Parser.Forward g.operand

namespace Grammar

variable {g : Grammar}

section Annotations

theorem effects_forward : effects.Forward := by
  refine .bind (.collectWhile _ (.bind .consume fun t => .bind .get fun c => ?_)) fun _ => .pure _
  exact .ite (.bind .skipBalanced fun _ => .sliceFrom _) (.sliceFrom _)

theorem elementLabel_forward : elementLabel.Forward := by
  refine .bind .get fun c => .ite (.bind (.skip _) fun _ => .pure _) (.ite ?_ (.pure _))
  exact .bind (.skip _) fun _ => .bind (.sliceFrom _) fun _ => .bind (.skip _) fun _ => .pure _

theorem skipEllipsis_forward : skipEllipsis.Forward :=
  .bind .current fun _ => .ite (.skip _) (.pure _)

variable (hg : g.Forward)
include hg

theorem argument_forward : Parser.Forward (do
    let c ← get
    let start := c.peek
    let label ←
      if start.kind == .identifier && (c.peek 1).isSymbol ":" then do
        skip 2
        pure (some start.text)
      else pure none
    let expression ← g.expression
    return Argument.mk expression label (← sliceFrom start)) := by
  refine .bind .get fun c => .ite (.bind (.skip _) fun _ => .bind (.pure _) fun _ => ?_) (.bind (.pure _) fun _ => ?_)
  · exact .bind hg.expression fun _ => .keep _ _
  · exact .bind hg.expression fun _ => .keep _ _

theorem arguments_forward (first last : String) : (g.arguments first last).Forward :=
  .bracketed _ _ _ (argument_forward hg)

theorem arguments_onward {first last : String} {as : List Argument} {c c' : Cursor}
    (h : g.arguments first last c = .ok as c') : (c.advance 1).Onward c' :=
  Parser.Forward.bracketed_onward (argument_forward hg) h

theorem attributeRule_forward : g.attributeRule.Forward := by
  unfold attributeRule
  refine .bind .consume fun t => ?_
  extract_lets finish rest
  have hfinish : ∀ arguments, Parser.Forward (finish arguments) :=
    fun _ => .bind (.sliceFrom _) fun _ => .bind .get fun _ => .pure _
  have hrest : Parser.Forward (rest ()) := by
    refine .bind .get fun c => .ite (.bind (.attempt (arguments_forward hg _ _)) fun o => ?_)
      (.bind (.pure _) hfinish)
    cases o with
    | none => exact .bind .skipBalanced fun _ => .bind (.pure _) hfinish
    | some as => exact .bind (.pure _) hfinish
  exact .ite (.bind (.throw _) fun _ => hrest) hrest

theorem attributesRule_forward : g.attributesRule.Forward :=
  .collectWhile _ (attributeRule_forward hg)

theorem genericClause_forward : g.genericClause.Forward :=
  .bind (.consumeOperator (by decide)) fun _ => .bind (.separated hg.type) fun _ =>
    .bind (.consumeOperator (by decide)) fun _ => .sliceFrom _

theorem namedType_forward : g.namedType.Forward := by
  unfold namedType
  refine .bind .consume fun start => .bind .get fun c => ?_
  extract_lets members
  have hmembers : ∀ generics, Parser.Forward (members generics) := by
    refine fun _ => .bind (.sliceFrom _) fun _ => .extend (fun node => .bind .get fun c => ?_) _
    refine .ite (.bind (.skip _) fun _ => .bind .get fun _ => .ite ?_ (.keep _ _)) (.pure _)
    exact .bind (genericClause_forward hg) fun _ => .keep _ _
  exact .ite (.bind (genericClause_forward hg) hmembers) (.bind (.pure _) hmembers)

theorem tupleOrFunctionType_forward : g.tupleOrFunctionType.Forward := by
  refine .bind .current fun start => .bind (.bracketed _ _ _ ?_) fun elements =>
    .bind effects_forward fun effects => .bind .current fun t => .ite ?_ (.ite (.fail _) (.keep _ _))
  · exact .bind .current fun first => .bind elementLabel_forward fun _ => .bind hg.type fun _ =>
      .bind skipEllipsis_forward fun _ => .keep _ _
  · exact .bind (.skip _) fun _ => .bind hg.type fun _ => .keep _ _

theorem collectionType_forward : g.collectionType.Forward := by
  refine .bind .consume fun start => .bind hg.type fun element => .bind .current fun t => .ite ?_ ?_
  · exact .bind (.skip _) fun _ => .bind hg.type fun _ => .bind (.expect _) fun _ => .keep _ _
  · exact .bind (.expect _) fun _ => .keep _ _

omit hg in
theorem typeSuffixes_forward (start : Token) (base : TypeTree) : (typeSuffixes start base).Forward := by
  refine .extend (fun node => .bind .get fun c => .ite ?_ (.ite ?_ (.pure _))) base
  · exact .bind (.consumePart Nat.one_pos) fun _ => .keep _ _
  · exact .bind (.skip _) fun _ => .keep _ _

theorem simpleType_forward : g.simpleType.Forward :=
  .bind .current fun _ => .ite (tupleOrFunctionType_forward hg) (.ite (collectionType_forward hg)
    (.ite (namedType_forward hg) (.fail _)))

theorem constraintRule_forward : g.constraintRule.Forward := by
  refine .bind .get fun c => .ite ?_ (.ite ?_ ?_)
  · refine .bind (.collectWhile _ (.bind .current fun t => .ite ?_ ?_)) fun _ =>
      .bind hg.type fun _ => .keep _ _
    · exact .bind (attributeRule_forward hg) fun _ => .pure _
    · exact .bind .consume fun _ => .pure _
  · exact .bind (.skip _) fun _ => .bind hg.constraint fun _ => .keep _ _
  · exact .bind (simpleType_forward hg) fun _ => typeSuffixes_forward _ _

theorem typeRule_forward : g.typeRule.Forward :=
  .bind .current fun _ => .bind (constraintRule_forward hg) fun _ =>
    .bind (.collectWhile _ (.bind (.skip _) fun _ => constraintRule_forward hg)) fun _ =>
      .ite (.pure _) (.keep _ _)

end Annotations

section Closures

theorem captureSpecifier_forward : captureSpecifier.Forward := by
  refine .bind .get fun c => .ite (.bind (.skip _) fun _ => .bind .get fun _ => ?_) (.pure _)
  exact .ite (.bind .skipBalanced fun _ => .keep _ _) (.keep _ _)

theorem captureName_forward : captureName.Forward :=
  .bind .get fun _ => .ite (.bind (.skip _) fun _ => .pure _) (.pure _)

theorem statements_forward : statements.Forward := by
  refine .bind .get fun c => ?_
  extract_lets
  split
  · exact .bind (.skip _) fun _ => .pure _
  · exact .bind (.skip _) fun _ => .fail _

variable (hg : g.Forward)
include hg

theorem captureClause_forward : g.captureClause.Forward :=
  .bind .current fun _ => .bind (.bracketed _ _ _ (.bind .current fun _ =>
    .bind captureSpecifier_forward fun _ => .bind captureName_forward fun _ =>
      .bind hg.expression fun _ => .keep _ _)) fun _ => .keep _ _

theorem closureParameter_forward : g.closureParameter.Forward := by
  unfold closureParameter
  refine .bind .current fun start => ?_
  extract_lets type rest
  have htype : ∀ name, Parser.Forward (type name) := by
    refine fun _ => .bind .current fun t => .ite ?_ (.bind (.pure _) fun _ => .keep _ _)
    exact .bind (.skip _) fun _ => .bind hg.type fun _ => .bind skipEllipsis_forward fun _ =>
      .bind (.pure _) fun _ => .keep _ _
  have hrest : Parser.Forward (rest ()) := .bind .consume fun _ => .bind .current fun _ =>
    .ite (.bind .consume fun _ => .bind (.pure _) htype) (.bind (.pure _) htype)
  exact .ite (.bind (.fail _) fun _ => hrest) hrest

theorem closureParameters_forward : g.closureParameters.Forward := by
  refine .bind .current fun start => .ite ?_ (.ite ?_ (.pure _))
  · exact .bind (.bracketed _ _ _ (closureParameter_forward hg)) fun _ => .keep _ _
  · refine .bind (.separated (.bind .current fun _ => .ite ?_ (.fail _))) fun _ => .keep _ _
    exact .bind .consume fun _ => .pure _

theorem returnClause_forward : g.returnClause.Forward :=
  .bind .current fun _ => .ite (.bind (.skip _) fun _ => .bind hg.type fun _ => .keep _ _) (.pure _)

theorem closureSignature_forward : g.closureSignature.Forward := by
  unfold closureSignature
  refine .bind .current fun start => .bind (attributesRule_forward hg) fun _ => ?_
  extract_lets rest
  have hrest : ∀ capture, Parser.Forward (rest capture) :=
    fun _ => .bind (closureParameters_forward hg) fun _ => .bind effects_forward fun _ =>
      .bind (returnClause_forward hg) fun _ => .bind .current fun _ =>
        .ite (.bind (.skip _) fun _ => .keep _ _) (.fail _)
  refine .bind .current fun _ => .ite ?_ (.bind (.pure _) hrest)
  exact .bind (captureClause_forward hg) fun _ => .bind (.pure _) hrest

theorem closureRule_forward : g.closureRule.Forward :=
  .bind (.expect _) fun _ => .bind (.attempt (closureSignature_forward hg)) fun _ =>
    .bind statements_forward fun _ => .bind (.expect _) fun _ => .keep _ _

theorem trailingClosure_forward : g.trailingClosure.Forward :=
  .bind .get fun _ => .ite (.bind (closureRule_forward hg) fun _ => .pure _) (.pure _)

theorem specializationClause_forward : g.specializationClause.Forward :=
  .bind (genericClause_forward hg) fun _ => .bind .current fun _ => .ite (.pure _) (.fail _)

theorem expansionRule_forward : g.expansionRule.Forward := by
  unfold expansionRule
  refine .bind .consume fun t => ?_
  extract_lets trailing arguments rest
  have htrailing : ∀ as, Parser.Forward (trailing as) := fun _ =>
    .bind (trailingClosure_forward hg) fun _ => .bind (.sliceFrom _) fun _ => .bind .get fun _ =>
      .pure _
  have harguments : Parser.Forward (arguments ()) := .bind .current fun _ =>
    .ite (.bind (arguments_forward hg _ _) htrailing) (.bind (.pure _) htrailing)
  have hrest : Parser.Forward (rest ()) := .bind .get fun _ =>
    .ite (.bind (.attempt (specializationClause_forward hg)) fun _ => harguments) harguments
  exact .ite (.bind (.throw _) fun _ => hrest) hrest

end Closures

section Expressions

theorem controlExpression_forward : controlExpression.Forward := by
  refine .bind .consume fun start => .bind (.extend (fun _ => .bind .get fun c => ?_) _) fun _ =>
    .keep _ _
  refine .ite (.bind .skipBalanced fun _ => .bind .current fun _ => ?_) (.ite (.fail _) ?_)
  · exact .ite (.bind (.skip _) fun _ => .pure _) (.pure _)
  · exact .ite (.bind .skipBalanced fun _ => .pure _) (.bind (.skip _) fun _ => .pure _)

theorem keyPath_forward : keyPath.Forward := by
  refine .bind .consume fun start => .bind (.extend (fun _ => .bind .current fun t => ?_) _) fun _ =>
    .keep _ _
  refine .ite (.pure _) (.ite (.bind (.skip _) fun _ => .pure _) (.ite ?_ (.ite ?_ (.pure _))))
  · exact .bind (.consumePart Nat.one_pos) fun _ => .pure _
  · exact .bind .skipBalanced fun _ => .pure _

theorem otherItems_forward {α : Type} {item : Parser α} (h : Parser.Forward item) :
    (otherItems item).Forward := by
  refine .collect (.bind .current fun _ => .ite (.bind (.skip _) fun _ => ?_) (.pure _))
  exact .bind .current fun _ => .ite (.pure _) (.bind h fun _ => .pure _)

theorem castModifier_forward : castModifier.Forward :=
  .bind .current fun _ => .ite (.bind (.consumePart Nat.one_pos) fun _ => .pure _) (.pure _)

variable (hg : g.Forward)
include hg

theorem collectionLiteral_forward : g.collectionLiteral.Forward := by
  refine .bind .consume fun start => .bind .get fun c => .ite (.bind (.skip _) fun _ => .keep _ _)
    (.ite (.bind (.skip _) fun _ => .keep _ _) (.bind hg.expression fun _ => .bind .current fun _ =>
      .ite ?_ ?_))
  · refine .bind (.skip _) fun _ => .bind hg.expression fun _ => .bind (.sliceFrom _) fun _ =>
      .bind (otherItems_forward ?_) fun _ => .bind (.expect _) fun _ => .keep _ _
    exact .bind .current fun _ => .bind hg.expression fun _ => .bind (.expect _) fun _ =>
      .bind hg.expression fun _ => .keep _ _
  · exact .bind (otherItems_forward hg.expression) fun _ => .bind (.expect _) fun _ => .keep _ _

theorem nameExpression_forward : g.nameExpression.Forward := by
  refine .bind .consume fun t => .bind .get fun c => .ite ?_ (.pure _)
  refine .bind (.attempt (specializationClause_forward hg)) fun o => ?_
  cases o with
  | none => exact .pure _
  | some clause => exact .keep _ _

theorem wordExpression_forward : g.wordExpression.Forward := by
  refine .bind .current fun t => .ite (.bind (.skip _) fun _ => .pure _)
    (.ite (.bind (.skip _) fun _ => .pure _) (.ite ?_ ?_))
  · exact controlExpression_forward
  · exact nameExpression_forward hg

theorem primary_forward : g.primary.Forward := by
  refine .bind .get fun c => ?_
  dsimp only
  split
  case h_4 => exact wordExpression_forward hg
  case h_5 => exact .bind (expansionRule_forward hg) fun _ => .pure _
  case h_6 => exact keyPath_forward
  case h_7 =>
    refine .ite (.bind (.skip _) fun _ => .keep _ _) (.ite (collectionLiteral_forward hg)
      (.ite (.bind (arguments_forward hg _ _) fun _ => .keep _ _) (.ite ?_ (.fail _))))
    exact .bind (closureRule_forward hg) fun _ => .pure _
  all_goals exact .bind (.skip _) fun _ => .pure _

theorem suffixes_forward (start : Token) (base : Expression) :
    (g.suffixes start base).Forward := by
  refine .extend (fun e => .bind .get fun c => .ite (.bind (.skip _) fun _ => .keep _ _) (.ite ?_
    (.ite ?_ (.ite ?_ (.ite ?_ (.pure _)))))) base
  · exact .bind (arguments_forward hg _ _) fun _ => .bind (trailingClosure_forward hg) fun _ =>
      .keep _ _
  · exact .bind (arguments_forward hg _ _) fun _ => .keep _ _
  · exact .bind (closureRule_forward hg) fun _ => .keep _ _
  · exact .bind (.consumePart Nat.one_pos) fun _ => .keep _ _

theorem operandRule_forward : g.operandRule.Forward := by
  unfold operandRule
  refine .bind .get fun c => ?_
  extract_lets start next inner
  have hinner : Parser.Forward (inner ()) :=
    .bind (.sliceFrom _) fun _ => .bind hg.operand fun _ => .keep _ _
  refine .ite (.bind (.skip _) fun _ => ?_) (.ite (.bind (.skip _) fun _ => .pure _) (.ite ?_ ?_))
  · exact .ite (.bind (.consumePart Nat.one_pos) fun _ => hinner) hinner
  · exact .bind (.skip _) fun _ => .bind hg.operand fun _ => .keep _ _
  · exact .bind (primary_forward hg) fun _ => suffixes_forward hg _ _

theorem sequenceTail_forward : g.sequenceTail.Forward := by
  unfold sequenceTail
  refine .bind .get fun c => ?_
  extract_lets t target operand
  have htarget : ∀ link, Parser.Forward (target link) := fun _ =>
    .bind .current fun _ => .bind hg.type fun _ => .keep _ _
  have hoperand : ∀ link, Parser.Forward (operand link) := fun _ =>
    .bind (operandRule_forward hg) fun _ => .pure _
  refine .ite (.bind (.skip _) fun _ => ?_) (.ite (.bind (.skip _) fun _ => ?_) (.pure _))
  · refine .ite (.bind castModifier_forward fun _ => .bind (.sliceFrom _) fun _ => ?_)
      (.bind (.pure _) htarget)
    exact .bind (.pure _) htarget
  · refine .ite (.bind hg.expression fun _ => .bind (.expect _) fun _ => .bind (.sliceFrom _)
      fun _ => ?_) (.bind (.pure _) hoperand)
    exact .bind (.pure _) hoperand

theorem expressionRule_forward : g.expressionRule.Forward :=
  .bind .current fun _ => .bind (operandRule_forward hg) fun _ =>
    .bind (.collect (sequenceTail_forward hg)) fun _ => .ite (.pure _) (.keep _ _)

end Expressions

section Declarations

theorem orRest_forward {α : Type} {p : Parser α} (h : Parser.Forward p) (raw : Text → α) :
    (orRest p raw).Forward := by
  refine .bind .current fun _ => .bind (.attempt h) fun o => ?_
  cases o with
  | none => exact .bind .get fun _ => .bind (.skip _) fun _ => .keep _ _
  | some a => exact .pure _

theorem groupHeader_forward (name : Text) : (groupHeader name).Forward := by
  refine .extend (fun _ => .bind .get fun c => .ite (.pure _) (.ite (.fail _) (.ite ?_ ?_))) _
  · exact .bind .skipBalanced fun _ => .pure _
  · exact .bind (.skip _) fun _ => .pure _

variable (hg : g.Forward)
include hg

theorem modifierRule_forward : g.modifierRule.Forward := by
  unfold modifierRule
  refine .bind .consume fun t => ?_
  extract_lets rest
  have hrest : ∀ detail, Parser.Forward (rest detail) := fun _ =>
    .bind (.sliceFrom _) fun _ => .bind (attributesRule_forward hg) fun _ => .pure _
  refine .bind .get fun c => .ite ?_ (.bind (.pure _) hrest)
  exact .bind (.skip _) fun _ => .bind .consume fun _ => .bind (.expect _) fun _ =>
    .bind (.pure _) hrest

theorem modifiersRule_forward : g.modifiersRule.Forward :=
  .collectWhile _ (modifierRule_forward hg)

theorem bindingRule_forward : g.bindingRule.Forward := by
  unfold bindingRule
  refine .bind .current fun first => ?_
  extract_lets pattern
  have hpattern : ∀ name, Parser.Forward (pattern name) := by
    refine fun _ => .bind (.sliceFrom _) fun _ => .bind .current fun _ => ?_
    extract_lets initializer
    have hinitializer : ∀ type, Parser.Forward (initializer type) := by
      refine fun _ => .bind .current fun _ => ?_
      extract_lets accessors
      have haccessors : ∀ value, Parser.Forward (accessors value) := by
        refine fun _ => .bind .current fun _ => ?_
        extract_lets finish
        have hfinish : ∀ text, Parser.Forward (finish text) := fun _ => .keep _ _
        refine .ite ?_ (.bind (.pure _) hfinish)
        exact .bind .skipBalanced fun _ => .bind (.sliceFrom _) fun _ => .bind (.pure _) hfinish
      refine .ite ?_ (.bind (.pure _) haccessors)
      exact .bind (.skip _) fun _ => .bind (orRest_forward hg.expression _) fun _ =>
        .bind (.pure _) haccessors
    refine .ite ?_ (.bind (.pure _) hinitializer)
    exact .bind (.skip _) fun _ => .bind (orRest_forward hg.type _) fun _ =>
      .bind (.pure _) hinitializer
  refine .ite (.bind .consume fun _ => .bind (.pure _) hpattern) (.ite ?_ (.bind (.fail _) hpattern))
  exact .bind .skipBalanced fun _ => .bind (.pure _) hpattern

theorem memberBody_forward (start : Token) (attributes : List Attribute)
    (modifiers : List Modifier) : (g.memberBody start attributes modifiers).Forward := by
  refine .bind .current fun t => .ite ?_ ?_
  · exact .bind (.skip _) fun _ => .bind (.separated (bindingRule_forward hg)) fun _ => .keep _ _
  · exact .bind .get fun _ => .bind (.skip _) fun _ => .bind .get fun _ => .pure _

theorem memberRule_forward : g.memberRule.Forward :=
  .bind .current fun _ => .bind (attributesRule_forward hg) fun _ =>
    .bind (modifiersRule_forward hg) fun _ => memberBody_forward hg _ _ _

theorem blockItem_forward : g.blockItem.Forward := by
  refine .bind .get fun c => .ite (.pure _) (.ite (.fail _) (.ite ?_ ?_))
  · exact .bind (.skip _) fun _ => .pure _
  · exact .bind (memberRule_forward hg) fun _ => .bind .get fun _ =>
      .ite (.bind (.skip _) fun _ => .pure _) (.pure _)

theorem memberBlockRule_forward : g.memberBlockRule.Forward :=
  .bind (.expect _) fun _ => .bind (.collect (blockItem_forward hg)) fun _ => .bind (.expect _) fun _ =>
    .keep _ _

theorem groupBody_forward (start : Token) (attributes : List Attribute)
    (modifiers : List Modifier) : (g.groupBody start attributes modifiers).Forward := by
  unfold groupBody
  refine .bind .consume fun keyword => ?_
  extract_lets rest
  have hrest : Parser.Forward (rest ()) :=
    .bind .consume fun _ => .bind (groupHeader_forward _) fun _ =>
      .bind (memberBlockRule_forward hg) fun _ => .keep _ _
  exact .bind .current fun _ => .ite (.bind (.fail _) fun _ => hrest) hrest

theorem declarationRule_forward : g.declarationRule.Forward :=
  .bind .current fun _ => .bind (attributesRule_forward hg) fun _ =>
    .bind (modifiersRule_forward hg) fun _ => .bind .current fun _ =>
      .ite (.bind (groupBody_forward hg _ _ _) fun _ => .pure _)
        (.bind (memberBody_forward hg _ _ _) fun _ => .pure _)

end Declarations

/-- However many levels a grammar has, it reads forward. -/
theorem upTo_forward (n : Nat) : (upTo n).Forward := by
  induction n with
  | zero => exact ⟨.stall, .stall, .stall, .stall⟩
  | succ n ih =>
    exact ⟨typeRule_forward ih, constraintRule_forward ih, expressionRule_forward ih,
      operandRule_forward ih⟩

end Grammar

namespace Parser

theorem Forward.withGrammar {α : Type} {rule : Grammar → Parser α}
    (h : ∀ g : Grammar, g.Forward → Forward (rule g)) : Forward (withGrammar rule) :=
  .bind .get fun _ => h _ (Grammar.upTo_forward _)

theorem group_forward : Forward group := by
  refine .bind (.withGrammar fun _ => Grammar.declarationRule_forward) fun d => ?_
  cases d with
  | group g => exact .pure _
  | member m => exact .bind .current fun _ => .throw _

end Parser

end SwiftMacros
