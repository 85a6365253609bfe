import SwiftMacros.Grammar.Closure
import SwiftMacros.Tree.Expression

/-! The grammar of expressions. An expression is a flat sequence of operands and operators; an
operator is binary when it has white space on both sides or on none. -/

namespace SwiftMacros.Grammar

open SwiftMacros.Parser

/-- `if`, `switch` or `do` with its blocks, which are passed over. -/
def controlExpression : Parser Expression := do
  let start ← consume
  extend (fun _ => do
    let c ← get
    if c.peek.isSymbol "\x7b" then do
      skipBalanced
      let t ← current
      if t.reads "else".toList || t.reads "catch".toList then do
        skip 1
        return some ()
      else return none
    else if c.isEof then fail (.controlBody start.text)
    else if c.peek.isOpener then do
      skipBalanced
      return some ()
    else do
      skip 1
      return some ()) ()
  return .raw (← sliceFrom start)

/-- A key path: names, dots, indices, optional marks and subscripts without space between them. -/
def keyPath : Parser Expression := do
  let start ← consume
  extend (fun _ => do
    let t ← current
    if t.spaceBefore then return none
    else if t.kind == .identifier || t.kind == .dot || t.kind == .integer then do
      skip 1
      return some ()
    else if t.isMark then do
      let _ ← consumePart 1
      return some ()
    else if t.isSymbol "[" then do
      skipBalanced
      return some ()
    else return none) ()
  return .keyPath (← sliceFrom start)

/-- The items behind the first of a collection literal; a comma can follow the last. -/
def otherItems {α : Type} (item : Parser α) : Parser (List α) :=
  collect do
    if (← current).isSymbol "," then
      skip 1
      if (← current).isSymbol "]" then return none
      else return some (← item)
    else return none

/-- An array or dictionary literal. -/
def collectionLiteral (g : Grammar) : Parser Expression := do
  let start ← consume
  let c ← get
  if c.peek.isSymbol ":" && (c.peek 1).isSymbol "]" then
    skip 2
    return .dictionary [] (← sliceFrom start)
  else if c.peek.isSymbol "]" then
    skip 1
    return .array [] (← sliceFrom start)
  else
    let first ← g.expression
    if (← current).isSymbol ":" then
      skip 1
      let value ← g.expression
      let entry := Entry.mk first value (← sliceFrom c.peek)
      let others ← otherItems do
        let start ← current
        let key ← g.expression
        let _ ← expect [':']
        let value ← g.expression
        return Entry.mk key value (← sliceFrom start)
      let _ ← expect "]".toList
      return .dictionary (entry :: others) (← sliceFrom start)
    else
      let others ← otherItems g.expression
      let _ ← expect "]".toList
      return .array (first :: others) (← sliceFrom start)

/-- A name, with its generic arguments if they are some. -/
def nameExpression (g : Grammar) : Parser Expression := do
  let t ← consume
  let name := Expression.reference t.text t.text
  if genericsFollow (← get) then
    match ← attempt g.specializationClause with
    | some clause => return .specialization name clause (← sliceFrom t)
    | none => return name
  else return name

def wordExpression (g : Grammar) : Parser Expression := do
  let t ← current
  if t.isIdentifierIn ["true", "false"] then
    skip 1
    return .boolean (t.text == "true".toList) t.text
  else if t.isIdentifierIn ["nil"] then
    skip 1
    return .nilLiteral t.text
  else if t.isIdentifierIn ["if", "switch", "do"] then controlExpression
  else g.nameExpression

/-- An operand without its prefix and suffixes. -/
def primary (g : Grammar) : Parser Expression := do
  let c ← get
  let t := c.peek
  match t.kind with
  | .integer =>
    skip 1
    return .integer t.text
  | .float =>
    skip 1
    return .float t.text
  | .string =>
    skip 1
    return .string (stringValue t.text) t.text
  | .identifier => g.wordExpression
  | .poundName => return .expansion (← g.expansionRule)
  | .backslash => keyPath
  | _ =>
    let next := c.peek 1
    if t.kind == .dot && next.kind == .identifier && !next.spaceBefore then
      skip 2
      return .implicitMember next.text (← sliceFrom t)
    else if t.isSymbol "[" then g.collectionLiteral
    else if t.isSymbol "(" then
      let elements ← g.arguments "(" ")"
      return .tuple elements (← sliceFrom t)
    else if t.isSymbol "\x7b" then return .closure (← g.closureRule)
    else fail .expression

/-- Whether `t` is an operator of optional marks only. -/
def isMarks (t : Token) : Bool :=
  t.kind == .operator && t.text.all fun c => c == '?' || c == '!'

/-- The members, calls, subscripts and marks behind an operand that begins at `start`. -/
def suffixes (g : Grammar) (start : Token) (base : Expression) : Parser Expression :=
  extend (fun e => do
    let c ← get
    let t := c.peek
    let next := c.peek 1
    if t.kind == .dot && (next.kind == .identifier || next.kind == .integer) then
      skip 2
      return some (.member e next.text (← sliceFrom start))
    else if t.isSymbol "(" && !t.newlineBefore then
      let arguments ← g.arguments "(" ")"
      let trailing ← g.trailingClosure
      return some (.call e arguments trailing true (← sliceFrom start))
    else if t.isSymbol "[" && !t.newlineBefore && !t.spaceBefore then
      let arguments ← g.arguments "[" "]"
      return some (.subscript e arguments (← sliceFrom start))
    else if closureFollows c then
      let trailing ← g.closureRule
      return some (.call e [] (some trailing) false (← sliceFrom start))
    else if isMarks t && !t.spaceBefore then
      let mark ← consumePart 1
      return some (.postfixed e mark.text (← sliceFrom start))
    else return none) base

/-- Whether an operand can follow a word such as `try` at `t`. -/
def operandFollows (t : Token) : Bool :=
  t.kind != .eof && !t.newlineBefore && !t.isCloser && !t.isSymbolIn [",", ":", ";"]

/-- An expression without binary operators: words such as `try` and prefix operators come first. An
operator in front of nothing stands for itself. -/
def operandRule (g : Grammar) : Parser Expression := do
  let c ← get
  let start := c.peek
  let next := c.peek 1
  if start.isIdentifierIn ["try", "await", "consume", "copy"] && operandFollows next then
    skip 1
    if start.text == "try".toList && next.isMark && !next.spaceBefore then
      let _ ← consumePart 1
    let keyword ← sliceFrom start
    let inner ← g.operand
    return .effect keyword inner (← sliceFrom start)
  else if start.kind == .operator && (next.kind == .eof || next.isCloser || next.isSymbol ",") then
    skip 1
    return .raw start.text
  else if start.kind == .operator && !next.spaceBefore then
    skip 1
    let operand ← g.operand
    return .prefixed start.text operand (← sliceFrom start)
  else
    let base ← g.primary
    g.suffixes start base

/-- Whether the operator at the cursor has an operand on both sides. -/
def isBinary (c : Cursor) : Bool :=
  let next := c.peek 1
  next.kind != .eof && !next.isCloser && !next.isSymbolIn [",", ";", ":"] &&
    c.peek.spaceBefore == next.spaceBefore

/-- The modifier of an `as` that has been taken. -/
def castModifier : Parser Text := do
  let t ← current
  if t.isMark && !t.spaceBefore then return (← consumePart 1).text else return []

/-- The elements that one more operator adds to a sequence, if one follows. -/
def sequenceTail (g : Grammar) : Parser (Option (List Expression)) := do
  let c ← get
  let t := c.peek
  if t.isIdentifierIn ["as", "is"] && !t.newlineBefore then
    skip 1
    let link ←
      if t.text == "as".toList then do
        let modifier ← castModifier
        pure (Expression.cast modifier (← sliceFrom t))
      else pure (.typeTest t.text)
    let start ← current
    let target ← g.type
    return some [link, .typeOperand target (← sliceFrom start)]
  else if t.kind == .operator && isBinary c then
    skip 1
    let link ←
      if t.text == ['?'] then do
        let choice ← g.expression
        let _ ← expect [':']
        pure (Expression.ternary choice (← sliceFrom t))
      else pure (.operator t.text)
    let operand ← g.operandRule
    return some [link, operand]
  else return none

def expressionRule (g : Grammar) : Parser Expression := do
  let start ← current
  let first ← g.operandRule
  let others ← collect g.sequenceTail
  if others.isEmpty then return first
  else return .sequence (first :: others.flatten) (← sliceFrom start)

end SwiftMacros.Grammar
