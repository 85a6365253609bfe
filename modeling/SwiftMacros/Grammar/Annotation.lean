import SwiftMacros.Grammar.Basic

/-! The grammar of type annotations. An optional mark or an opening `<` counts only when nothing
stands before it; an operator that runs several marks together, such as `?>`, is split as needed. -/

namespace SwiftMacros.Grammar

open SwiftMacros.Parser

def effectKeywords : List String := ["async", "throws", "rethrows"]

def isEffect (t : Token) : Bool := t.isIdentifierIn effectKeywords

/-- The words `async`, `throws` and `rethrows`, the second with its error type. -/
def effects : Parser Text := do
  let parts ← collectWhile (fun c => isEffect c.peek) do
    let t ← consume
    if t.text == "throws".toList && parenFollows (← get) then skipBalanced
    sliceFrom t
  return Text.join [' '] parts

/-- Whether `t` is an attribute or a word that qualifies the type behind it. -/
def qualifiesType (t : Token) : Bool :=
  t.kind == .atName ||
    t.isIdentifierIn ["inout", "borrowing", "consuming", "sending", "__owned", "__shared"]

/-- Whether a type can follow `some` or `any` at `t`. -/
def typeFollows (t : Token) : Bool :=
  !t.newlineBefore && (t.kind == .identifier || t.isSymbolIn ["(", "["])

def isMetatypeName (t : Token) : Bool := t.isIdentifierIn ["Type", "Protocol"]

def genericsFollow (c : Cursor) : Bool := c.peek.isOperatorWith "<" && !c.peek.spaceBefore

/-- Types in angle brackets; the answer is their source. -/
def genericClause (g : Grammar) : Parser Text := do
  let start ← consumeOperator "<"
  let _ ← separated g.type
  let _ ← consumeOperator ">"
  sliceFrom start

/-- A name with its generic arguments, and the members behind it. -/
def namedType (g : Grammar) : Parser TypeTree := do
  let start ← consume
  let generics ← if genericsFollow (← get) then g.genericClause else pure []
  let base := TypeTree.named start.text generics (← sliceFrom start)
  extend (fun node => do
    let c ← get
    let name := c.peek 1
    if c.peek.kind == .dot && name.kind == .identifier && !isMetatypeName name then do
      skip 2
      if genericsFollow (← get) then
        let _ ← g.genericClause
      return some (.member node name.text (← sliceFrom start))
    else return none) base

/-- The label of an element, one name or two, if the element has one. -/
def elementLabel : Parser (Option Text) := do
  let c ← get
  let first := c.peek
  if first.kind == .identifier && (c.peek 1).isSymbol ":" then
    skip 2
    return some first.text
  else if first.kind == .identifier && (c.peek 1).kind == .identifier &&
      (c.peek 2).isSymbol ":" then
    skip 2
    let label ← sliceFrom first
    skip 1
    return some label
  else return none

def skipEllipsis : Parser Unit := do
  if (← current).has .operator "..." then skip 1

/-- A tuple type, or a function type if an arrow follows. -/
def tupleOrFunctionType (g : Grammar) : Parser TypeTree := do
  let start ← current
  let elements ← bracketed "(" ")" .tupleTypeSeparator do
    let first ← current
    let label ← elementLabel
    let type ← g.type
    skipEllipsis
    return TypeElement.mk type label (← sliceFrom first)
  let effects ← effects
  if (← current).has .arrow "->" then
    skip 1
    let result ← g.type
    return .function elements result effects (← sliceFrom start)
  else if !effects.isEmpty then fail .effectArrow
  else return .tuple elements (← sliceFrom start)

/-- An array or dictionary type. -/
def collectionType (g : Grammar) : Parser TypeTree := do
  let start ← consume
  let element ← g.type
  if (← current).isSymbol ":" then
    skip 1
    let value ← g.type
    let _ ← expect "]".toList
    return .dictionary element value (← sliceFrom start)
  else
    let _ ← expect "]".toList
    return .array element (← sliceFrom start)

/-- The optional marks and metatype members behind a type that begins at `start`. -/
def typeSuffixes (start : Token) (base : TypeTree) : Parser TypeTree :=
  extend (fun node => do
    let c ← get
    let t := c.peek
    if t.isMark && !t.spaceBefore then
      let mark ← consumePart 1
      let text ← sliceFrom start
      return some (if mark.text == ['?'] then .optional node text else .unwrapped node text)
    else if t.kind == .dot && isMetatypeName (c.peek 1) then
      skip 2
      return some (.metatype node (c.peek 1).text (← sliceFrom start))
    else return none) base

def simpleType (g : Grammar) : Parser TypeTree := do
  let t ← current
  if t.isSymbol "(" then g.tupleOrFunctionType
  else if t.isSymbol "[" then g.collectionType
  else if t.kind == .identifier then g.namedType
  else fail .type

/-- A type without the `&` of a composition. -/
def constraintRule (g : Grammar) : Parser TypeTree := do
  let c ← get
  let start := c.peek
  if qualifiesType start then
    let attributes ← collectWhile (fun c => qualifiesType c.peek) do
      if (← current).kind == .atName then return (← g.attributeRule).text
      else return (← consume).text
    let base ← g.type
    return .attributed attributes base (← sliceFrom start)
  else if start.isIdentifierIn ["some", "any"] && typeFollows (c.peek 1) then
    skip 1
    let constraint ← g.constraint
    return .constrained start.text constraint (← sliceFrom start)
  else
    let base ← g.simpleType
    typeSuffixes start base

def typeRule (g : Grammar) : Parser TypeTree := do
  let start ← current
  let first ← g.constraintRule
  let others ← collectWhile (·.peek.has .operator "&") do
    skip 1
    g.constraintRule
  if others.isEmpty then return first
  else return .composition (first :: others) (← sliceFrom start)

end SwiftMacros.Grammar
