import SwiftMacros.Parser
import SwiftMacros.Tree.Declaration

/-! What the grammar refers back to. Types and expressions hold types and expressions; a rule that
meets a nested one does so behind at least one token of its own and reads it with a grammar that is
given to it. The whole grammar is tied up in `Grammar.Closed`. -/

namespace SwiftMacros

/-- The rules that nested parts are read with. -/
structure Grammar where
  type : Parser TypeTree
  /-- A type without the `&` of a composition. -/
  constraint : Parser TypeTree
  expression : Parser Expression
  /-- An expression without binary operators. -/
  operand : Parser Expression

namespace Grammar

open SwiftMacros.Parser

/-- Expressions with optional labels between two marks. -/
def arguments (g : Grammar) (first last : String) : Parser (List Argument) :=
  bracketed first last (.listSeparator last.toList) do
    let c ← get
    let start := c.peek
    let label ←
      if start.kind == .identifier && (c.peek 1).isSymbol ":" then do
        skip 2
        pure (some start.text)
      else pure none
    let expression ← g.expression
    return ⟨expression, label, ← sliceFrom start⟩

/-- Whether the token at the cursor is an opening parenthesis that directly follows the one before.
-/
def parenFollows (c : Cursor) : Bool := c.peek.isSymbol "(" && !c.peek.spaceBefore

/-- An attribute. Arguments that are no expressions are passed over and count as none given. -/
def attributeRule (g : Grammar) : Parser Attribute := do
  let t ← consume
  if t.kind != .atName then throw (.locate (.notAttribute t.text) t)
  let arguments ←
    if parenFollows (← get) then do
      match ← attempt (g.arguments "(" ")") with
      | some as => pure (some as)
      | none => do
        skipBalanced
        pure (some [])
    else pure none
  return {
    name := t.text.drop 1
    arguments
    text := ← sliceFrom t
    start := t.start
    stop := (← get).previous.stop
    line := t.line
    column := t.column }

def attributesRule (g : Grammar) : Parser (List Attribute) :=
  collectWhile (·.peek.kind == .atName) g.attributeRule

end Grammar

end SwiftMacros
