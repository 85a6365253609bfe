import SwiftMacros.Text.Basic

/-! Type annotations as trees. Every node keeps the slice of the source that it was read from, so
that a shape nobody inspects is still shown as it was written. -/

namespace SwiftMacros

mutual

inductive TypeTree where
  /-- A name with its generic arguments, `Array<Int>`. -/
  | named (name generics text : Text)
  | member (base : TypeTree) (name text : Text)
  | optional (wrapped : TypeTree) (text : Text)
  /-- An implicitly unwrapped optional, `T!`. -/
  | unwrapped (wrapped : TypeTree) (text : Text)
  | tuple (elements : List TypeElement) (text : Text)
  | function (parameters : List TypeElement) (result : TypeTree) (effects text : Text)
  /-- A metatype; the specifier is `Type` or `Protocol`. -/
  | metatype (base : TypeTree) (specifier text : Text)
  | array (element : TypeTree) (text : Text)
  | dictionary (key value : TypeTree) (text : Text)
  | attributed (attributes : List Text) (base : TypeTree) (text : Text)
  /-- A constraint behind `some` or `any`. -/
  | constrained (specifier : Text) (constraint : TypeTree) (text : Text)
  | composition (elements : List TypeTree) (text : Text)
  /-- An annotation without known structure. -/
  | raw (text : Text)

/-- An element of a tuple type or of a parameter list, with its label if it has one. -/
structure TypeElement where
  type : TypeTree
  label : Option Text
  text : Text

end

instance : Inhabited TypeTree := ⟨.raw []⟩

/-- The slice of the source that a node was read from. -/
def TypeTree.text : TypeTree → Text
  | named _ _ t | member _ _ t | optional _ t | unwrapped _ t | tuple _ t | function _ _ _ t
  | metatype _ _ t | array _ t | dictionary _ _ t | attributed _ _ t | constrained _ _ t
  | composition _ t | raw t => t

/-! Expressions as trees, with the closures and macro expansions in them. An operator sequence is
kept flat: operands alternate with operators, casts and ternaries, and no precedence is applied. The
statements of a closure are split but not read. -/

/-- A parameter of a parenthesized closure parameter list. -/
structure ClosureParameter where
  name : Text
  type : Option TypeTree
  text : Text

/-- The parameters of a closure: typed in parentheses, or bare names. -/
inductive ParameterClause where
  | typed (parameters : List ClosureParameter) (text : Text)
  | shorthand (names : List Text) (text : Text)

structure ReturnClause where
  type : TypeTree
  text : Text

/-- A statement of a closure body, and the white space before its first line. -/
structure Statement where
  text : Text
  indent : Text := []
  deriving DecidableEq, Repr, Inhabited

mutual

inductive Expression where
  | integer (text : Text)
  | float (text : Text)
  /-- A string literal; the value is what stands between its delimiters. -/
  | string (value text : Text)
  | boolean (value : Bool) (text : Text)
  | nilLiteral (text : Text)
  | keyPath (text : Text)
  | reference (name text : Text)
  | specialization (base : Expression) (generics text : Text)
  | member (base : Expression) (name text : Text)
  | implicitMember (name text : Text)
  | array (elements : List Expression) (text : Text)
  | dictionary (entries : List Entry) (text : Text)
  | tuple (elements : List Argument) (text : Text)
  | subscript (base : Expression) (arguments : List Argument) (text : Text)
  | prefixed (mark : Text) (operand : Expression) (text : Text)
  | postfixed (operand : Expression) (mark text : Text)
  /-- An operand behind `try`, `await`, `consume` or `copy`. -/
  | effect (keyword : Text) (operand : Expression) (text : Text)
  | operator (text : Text)
  /-- The `as` of a cast; its modifier is empty, `?` or `!`. -/
  | cast (modifier text : Text)
  | typeTest (text : Text)
  /-- The middle of a ternary, from `?` to `:`. -/
  | ternary (choice : Expression) (text : Text)
  /-- The type behind a cast or a type test. -/
  | typeOperand (type : TypeTree) (text : Text)
  | sequence (elements : List Expression) (text : Text)
  | raw (text : Text)
  | closure (closure : Closure)
  | call (called : Expression) (arguments : List Argument) (trailing : Option Closure)
      (hasParens : Bool) (text : Text)
  | expansion (expansion : MacroExpansion)

/-- An argument or tuple element, with its label if it has one. -/
structure Argument where
  expression : Expression
  label : Option Text
  text : Text

structure Entry where
  key : Expression
  value : Expression
  text : Text

/-- A captured expression, with a specifier such as `weak` and the name it is bound to. -/
structure Capture where
  expression : Expression
  specifier : Option Text
  name : Option Text
  text : Text

structure CaptureClause where
  items : List Capture
  text : Text

/-- What stands between the opening brace of a closure and `in`. -/
structure Signature where
  capture : Option CaptureClause
  parameters : Option ParameterClause
  effects : Text
  result : Option ReturnClause
  attributes : List Text
  text : Text

structure Closure where
  signature : Option Signature
  statements : List Statement
  text : Text
  indentUnit : Text

/-- A freestanding macro with its arguments and trailing closure, and where it stands. -/
structure MacroExpansion where
  name : Text
  arguments : List Argument
  trailing : Option Closure
  text : Text
  start : Nat
  stop : Nat
  line : Nat
  column : Nat

end

instance : Inhabited Expression := ⟨.raw []⟩

/-! The value of a string literal: what stands between its delimiters, with escapes as written. The
longest possible body is taken, a single line end may stand behind the closing delimiter, and a text
that has no such delimiters is its own value. -/

/-- The body of `t` between `opening` and `closing`, if it has both and they do not overlap. -/
def bodyBetween? (opening closing t : Text) : Option Text :=
  let rest := t.drop opening.length
  let body := rest.take (rest.length - closing.length)
  if opening.isPrefixOf t && closing.isSuffixOf rest then some body else none

/-- The body of a literal that `quotes` delimit behind `pounds` pounds. -/
def quotedBody? (quotes : Text) (pounds : Nat) (t : Text) : Option Text :=
  let mark := List.replicate pounds '#'
  let body := bodyBetween? (mark ++ quotes) (quotes ++ mark)
  (body t).or <| if t.getLast? = some '\n' then body t.dropLast else none

/-- Lines of a multi-line body, without the line ends next to the delimiters. -/
def trimLineEnds (t : Text) : Text :=
  Text.dropWhileEnd (· == '\n') (t.dropWhile (· == '\n'))

/-- The content of a string literal. Three quotes are tried before one. -/
def stringValue (t : Text) : Text :=
  let pounds := (t.takeWhile (· == '#')).length
  match quotedBody? ['"', '"', '"'] pounds t with
  | some body => trimLineEnds body
  | none => (quotedBody? ['"'] pounds t).getD t

end SwiftMacros
