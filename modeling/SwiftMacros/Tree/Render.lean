import SwiftMacros.Tree.Expression
import SwiftMacros.Text.Blank

/-! The source text of expressions and closures. A node with a slice of its own shows that slice. A
closure, or a part of one, whose slice is empty has been built or changed, and is laid out from its
children. -/

namespace SwiftMacros

def ParameterClause.toText : ParameterClause → Text
  | typed _ text => text
  | shorthand names [] => Text.join ", ".toList names
  | shorthand _ text => text

def ReturnClause.toText (r : ReturnClause) : Text :=
  match r.text with
  | [] => "-> ".toList ++ r.type.text
  | text => text

namespace Statement

/-- The lines of a statement moved as one to the indent `unit`; blank lines become empty. -/
def layout (unit : Text) (s : Statement) : Text :=
  Text.joinLines <| (Text.lines (Text.dedent (s.indent ++ s.text))).map fun line =>
    if Text.allBlank line then [] else unit ++ line

end Statement

/-- A closure laid out under its opening line: one indented block for each statement. -/
def closureLayout (head unit : Text) (statements : List Statement) : Text :=
  match statements with
  | [] => head ++ " \x7d".toList
  | _ => Text.joinLines (head :: (statements.map (Statement.layout unit)) ++ ["\x7d".toList])

mutual

def Expression.toText : Expression → Text
  | .reference name [] => name
  | .closure c => c.toText
  | .integer t | .float t | .string _ t | .boolean _ t | .nilLiteral t | .keyPath t
  | .reference _ t | .specialization _ _ t | .member _ _ t | .implicitMember _ t | .array _ t
  | .dictionary _ t | .tuple _ t | .subscript _ _ t | .prefixed _ _ t | .postfixed _ _ t
  | .effect _ _ t | .operator t | .cast _ t | .typeTest t | .ternary _ t | .typeOperand _ t
  | .sequence _ t | .raw t | .call _ _ _ _ t => t
  | .expansion e => e.text

def Capture.toText : Capture → Text
  | ⟨expression, specifier, name, []⟩ =>
    Text.join [' '] <| specifier.toList ++ (name.map (· ++ " =".toList)).toList ++
      [expression.toText]
  | ⟨_, _, _, text⟩ => text

def CaptureClause.itemTexts : List Capture → List Text
  | [] => []
  | c :: cs => c.toText :: CaptureClause.itemTexts cs

def CaptureClause.toText : CaptureClause → Text
  | ⟨items, []⟩ => '[' :: Text.join ", ".toList (CaptureClause.itemTexts items) ++ [']']
  | ⟨_, text⟩ => text

def Signature.toText : Signature → Text
  | ⟨capture, parameters, effects, result, attributes, []⟩ =>
    let captured := match capture with
      | some c => [c.toText]
      | none => []
    Text.join [' '] <| attributes ++ captured ++ (parameters.map ParameterClause.toText).toList ++
      (if effects.isEmpty then [] else [effects]) ++ (result.map ReturnClause.toText).toList ++
      ["in".toList]
  | ⟨_, _, _, _, _, text⟩ => text

def Closure.toText : Closure → Text
  | ⟨signature, statements, [], unit⟩ =>
    let head := match signature with
      | some s => "\x7b ".toList ++ s.toText
      | none => "\x7b".toList
    closureLayout head unit statements
  | ⟨_, _, text, _⟩ => text

end

end SwiftMacros
