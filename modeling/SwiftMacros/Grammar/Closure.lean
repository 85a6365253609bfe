import SwiftMacros.Token.Basic
import SwiftMacros.Tree.Expression
import SwiftMacros.Text.Blank
import SwiftMacros.Grammar.Annotation

/-! The statements of a closure body, which are split without being read. A statement ends at a
semicolon or a line end outside all brackets, unless the tokens on both sides of the line end show
that it goes on. A comment belongs to the statement before it, a comment in front of all tokens to
the first. -/

namespace SwiftMacros.Grammar

/-- Whether the token `t` on a new line continues the statement that `last` stands in; `next` is the
token behind `t`. -/
def continuesStatement (last t next : Token) : Bool :=
  t.kind == .dot || t.kind == .arrow || last.kind == .arrow || last.kind == .operator ||
    last.isSymbolIn [",", ":"] || t.isIdentifierIn ["else", "catch", "where", "as", "is"] ||
    (t.kind == .operator && t.text.head? != some '!' && next.spaceBefore)

/-- The statement between two offsets, without the white space behind it; none if it is empty. -/
def statementBetween (source : Text) (start stop : Nat) : List Statement :=
  match Text.trimEnd (Text.slice source start stop) with
  | [] => []
  | text => [⟨text, Text.indentAt source start⟩]

/-- A body read up to some token: where the open statement starts, whether it has a token yet, how
many brackets are open, and the token read last. -/
structure Body where
  start : Nat
  hasToken : Bool := false
  depth : Int := 0
  last : Token := default

namespace Body

/-- The body after one more token of an open statement. -/
def take (b : Body) (t : Token) : Body :=
  { b with
    hasToken := true
    depth := if t.isOpener then b.depth + 1 else if t.isCloser then b.depth - 1 else b.depth
    last := t }

/-- Whether the open statement ends before `t`, the first token of a new line. -/
def endsBefore (b : Body) (t next : Token) : Bool :=
  b.depth == 0 && b.hasToken && t.newlineBefore && !continuesStatement b.last t next

end Body

/-- The statements up to the closing brace, and the number of tokens before it; none if the source
ends first. `eof` is the token behind all others. -/
def statementsFrom (source : Text) (eof : Token) : Body → List Token → Option (List Statement × Nat)
  | _, [] => none
  | b, t :: ts =>
    let next := ts.head?.getD eof
    let done := statementBetween source b.start t.start
    if b.depth = 0 ∧ t.isSymbol "\x7d" then some (done, 0)
    else if b.depth = 0 ∧ t.isSymbol ";" then
      (statementsFrom source eof { b with start := next.start, hasToken := false } ts).map
        fun (rest, n) => (done ++ rest, n + 1)
    else if b.endsBefore t next then
      (statementsFrom source eof ({ b with start := t.start }.take t) ts).map
        fun (rest, n) => (done ++ rest, n + 1)
    else (statementsFrom source eof (b.take t) ts).map fun (rest, n) => (rest, n + 1)

/-! The grammar of closures and of freestanding macros. What stands behind the opening brace is
tried as a signature first; if no `in` follows, all of it belongs to the body. -/

open SwiftMacros.Parser

/-- The specifier of a captured name, such as `weak` or `unowned(unsafe)`. -/
def captureSpecifier : Parser (Option Text) := do
  let c ← get
  let t := c.peek
  let next := c.peek 1
  if (t.isIdentifierIn ["weak", "unowned"] && next.kind == .identifier) ||
      (t.text == "unowned".toList && next.isSymbol "(") then
    skip 1
    if parenFollows (← get) then skipBalanced
    return some (← sliceFrom t)
  else return none

/-- The name that a captured expression is bound to. -/
def captureName : Parser (Option Text) := do
  let c ← get
  if c.peek.kind == .identifier && (c.peek 1).has .operator "=" then
    skip 2
    return some c.peek.text
  else return none

def captureClause (g : Grammar) : Parser CaptureClause := do
  let start ← current
  let items ← bracketed "[" "]" .captureSeparator do
    let first ← current
    let specifier ← captureSpecifier
    let name ← captureName
    let expression ← g.expression
    return Capture.mk expression specifier name (← sliceFrom first)
  return ⟨items, ← sliceFrom start⟩

/-- A parameter: one name or two, the second counting, and a type if a colon follows. -/
def closureParameter (g : Grammar) : Parser ClosureParameter := do
  let start ← current
  if start.kind != .identifier then fail .closureParameter
  let first ← consume
  let second ← current
  let name ← if second.kind == .identifier then pure (← consume).text else pure first.text
  let type ←
    if (← current).isSymbol ":" then do
      skip 1
      let type ← g.type
      skipEllipsis
      pure (some type)
    else pure none
  return ⟨name, type, ← sliceFrom start⟩

def closureParameters (g : Grammar) : Parser (Option ParameterClause) := do
  let start ← current
  if start.isSymbol "(" then
    let parameters ← bracketed "(" ")" .closureParameterSeparator g.closureParameter
    return some (.typed parameters (← sliceFrom start))
  else if start.kind == .identifier && !isEffect start && start.text != "in".toList then
    let names ← separated do
      if (← current).kind == .identifier then return (← consume).text
      else fail .closureParameterName
    return some (.shorthand names (← sliceFrom start))
  else return none

def returnClause (g : Grammar) : Parser (Option ReturnClause) := do
  let arrow ← current
  if arrow.has .arrow "->" then
    skip 1
    let type ← g.type
    return some ⟨type, ← sliceFrom arrow⟩
  else return none

def closureSignature (g : Grammar) : Parser Signature := do
  let start ← current
  let attributes ← g.attributesRule
  let capture ←
    if (← current).isSymbol "[" then pure (some (← g.captureClause)) else pure none
  let parameters ← g.closureParameters
  let effects ← effects
  let result ← g.returnClause
  if (← current).isIdentifierIn ["in"] then
    skip 1
    return ⟨capture, parameters, effects, result, attributes.map (·.text), ← sliceFrom start⟩
  else fail .closureIn

/-- The statements between the token taken last and the closing brace. -/
def statements : Parser (List Statement) := do
  let c ← get
  let stop := c.previous.stop
  let start := stop + ((c.source.drop stop).takeWhile Text.isBlank).length
  match statementsFrom c.source c.eof { start } c.ahead with
  | some (items, n) =>
    skip n
    return items
  | none =>
    skip c.ahead.length
    fail .closureEnd

def closureRule (g : Grammar) : Parser Closure := do
  let start ← expect "\x7b".toList
  let signature ← attempt g.closureSignature
  let statements ← statements
  let _ ← expect "\x7d".toList
  return ⟨signature, statements, ← sliceFrom start, Text.spaces 4⟩

/-- Whether the brace at the cursor opens accessors, such as `willSet`, and no closure. -/
def accessorsFollow (c : Cursor) : Bool :=
  let inner := (c.ahead.drop 1).dropWhile (·.kind == .atName)
  let keyword := inner.head?.getD c.eof
  let next := (inner.drop 1).head?.getD c.eof
  keyword.isIdentifierIn ["get", "set", "didSet", "willSet", "_modify", "_read", "unsafeAddress"] &&
    next.isSymbolIn ["\x7b", "\x7d", "("]

/-- Whether a closure follows on the same line. -/
def closureFollows (c : Cursor) : Bool :=
  c.peek.isSymbol "\x7b" && !c.peek.newlineBefore && !accessorsFollow c

def trailingClosure (g : Grammar) : Parser (Option Closure) := do
  if closureFollows (← get) then return some (← g.closureRule) else return none

/-- Generic arguments of an expression. They count as such only if the token behind them cannot
start an operand. -/
def specializationClause (g : Grammar) : Parser Text := do
  let clause ← g.genericClause
  let next ← current
  if next.kind == .eof || next.newlineBefore || next.kind == .dot ||
      next.isSymbolIn ["(", ")", "]", ",", ":", ";", "\x7d"] then
    return clause
  else fail .specialization

/-- A freestanding macro. Its generic arguments are passed over. -/
def expansionRule (g : Grammar) : Parser MacroExpansion := do
  let t ← consume
  if t.kind != .poundName then throw (.locate (.notExpansion t.text) t)
  if genericsFollow (← get) then
    let _ ← attempt g.specializationClause
  let next ← current
  let arguments ←
    if next.isSymbol "(" && !next.newlineBefore then g.arguments "(" ")" else pure []
  let trailing ← g.trailingClosure
  return {
    name := t.text.drop 1
    arguments
    trailing
    text := ← sliceFrom t
    start := t.start
    stop := (← get).previous.stop
    line := t.line
    column := t.column }

end SwiftMacros.Grammar
