import SwiftMacros.Grammar.Declaration

/-! The grammar tied up: `Grammar.upTo n` reads sources in which less than `n` tokens follow, in
whatever way operators are split. A nested part starts behind the first token of the part that holds
it, so it is read with one level less. -/

namespace SwiftMacros

namespace Grammar

/-- The grammar of a number of levels. A level is made when a nested part is met. -/
def upTo : Nat → Grammar
  | 0 => ⟨Parser.stall, Parser.stall, Parser.stall, Parser.stall⟩
  | n + 1 =>
    { type := fun c => (upTo n).typeRule c
      constraint := fun c => (upTo n).constraintRule c
      expression := fun c => (upTo n).expressionRule c
      operand := fun c => (upTo n).operandRule c }

end Grammar

namespace Parser

variable {α : Type}

/-- Reads with a grammar that is large enough for what is left of the source. -/
def withGrammar (rule : Grammar → Parser α) : Parser α := do
  rule (Grammar.upTo ((← get).room + 1))

def type : Parser TypeTree := withGrammar Grammar.typeRule
def expression : Parser Expression := withGrammar Grammar.expressionRule
def closure : Parser Closure := withGrammar Grammar.closureRule
def expansion : Parser MacroExpansion := withGrammar Grammar.expansionRule
def attributeHere : Parser Attribute := withGrammar Grammar.attributeRule
def attributes : Parser (List Attribute) := withGrammar Grammar.attributesRule
def modifiers : Parser (List Modifier) := withGrammar Grammar.modifiersRule
def member : Parser Member := withGrammar Grammar.memberRule
def memberBlock : Parser MemberBlock := withGrammar Grammar.memberBlockRule
def declaration : Parser Declaration := withGrammar Grammar.declarationRule

/-- A declaration, which has to be that of a type. -/
def group : Parser Group := do
  match ← declaration with
  | .group g => return g
  | .member _ => throw (.locate .notTypeDeclaration (← current))

/-- What `p` reads at the start of a source. -/
def runOn (p : Parser α) (source : Text) : Except SyntaxError α :=
  match Cursor.ofText source with
  | .error e => .error e
  | .ok c =>
    match p c with
    | .ok a _ => .ok a
    | .error e _ => .error e

/-- `p`, which has to use up all tokens. -/
def whole (p : Parser α) : Parser α := do
  let a ← p
  expectEof
  return a

end Parser

end SwiftMacros
