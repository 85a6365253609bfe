import SwiftMacros.Text.Blank
import SwiftMacros.Tree.Declaration

/-! Edits of a text, and the layout of generated code. The edits of one pass are applied from the
last to the first, so that the offsets of those still to come stay valid. -/

namespace SwiftMacros

/-- Puts `text` in place of what stands between two offsets. -/
structure Edit where
  start : Nat
  stop : Nat
  text : Text
  deriving DecidableEq, Repr, Inhabited

/-- A range of offsets, the second excluded. -/
abbrev Span := Nat × Nat

def Span.overlaps (a b : Span) : Bool := a.1 < b.2 && b.1 < a.2

/-- Whether the offset lies in the span. -/
def Span.holds (s : Span) (offset : Nat) : Bool := s.1 ≤ offset && offset < s.2

namespace Edit

def apply (code : Text) (e : Edit) : Text := code.take e.start ++ e.text ++ code.drop e.stop

/-- The range that an edit takes for itself; an insertion takes the character it stands before. -/
def span (e : Edit) : Span := (e.start, max e.stop (e.start + 1))

/-- Whether `a` is applied no later than `b`: it starts later, or starts there too and ends no
earlier. -/
def comesFirst (a b : Edit) : Bool :=
  b.start < a.start || (b.start == a.start && b.stop ≤ a.stop)

/-- Puts `e` before the first edit that it precedes strictly, in a list in the order of application.
-/
def insertOrdered (e : Edit) : List Edit → List Edit
  | [] => [e]
  | d :: ds => if d.comesFirst e then d :: insertOrdered e ds else e :: d :: ds

/-- The edits in the order of application, those of the same range as they were given. -/
def ordered (es : List Edit) : List Edit := es.foldl (fun ds e => insertOrdered e ds) []

def applyAll (code : Text) (es : List Edit) : Text := (ordered es).foldl apply code

/-- Removes an attribute: its whole line if nothing else is on it, or else the attribute and the
spaces behind it. -/
def removal (code : Text) (start stop : Nat) : Edit :=
  let lineStart := Text.lineStart code start
  let lineEnd := Text.lineEnd code stop
  if Text.allBlank (Text.slice code lineStart start) ∧
      Text.allBlank (Text.slice code stop lineEnd) then
    ⟨lineStart, min (lineEnd + 1) code.length, []⟩
  else ⟨start, stop + (Text.leadingIndent (code.drop stop)).length, []⟩

/-- `text` with `indent` before each line that is not empty. -/
def indented (indent text : Text) : Text :=
  Text.joinLines <| (Text.lines text).map fun line => if line.isEmpty then [] else indent ++ line

/-- Inserts members before the closing brace of a block, indented by `inner`, with a blank line
between them and after the members that are there. The brace comes to stand behind `outer`. -/
def insertion (code : Text) (block : MemberBlock) (members : List Text) (outer inner : Text) :
    Edit :=
  let first := block.start + 1
  let close := block.stop - 1
  let anchor := first + (Text.trimEnd (Text.slice code first close)).length
  let lead := if first < anchor then "\n\n".toList else ['\n']
  ⟨anchor, close, lead ++ Text.join "\n\n".toList (members.map (indented inner)) ++ '\n' :: outer⟩

/-- `text` with `indent` before each line but the first that is not blank. -/
def indentContinuation (indent text : Text) : Text :=
  match Text.lines text with
  | [] => []
  | first :: rest =>
    Text.joinLines <|
      first :: rest.map fun line => if Text.allBlank line then line else indent ++ line

end Edit

/-- The indent of the first line below the opening brace of a block that is not blank, unless it has
none. -/
def MemberBlock.indent? (code : Text) (block : MemberBlock) : Option Text :=
  let inside := Text.slice code (block.start + 1) (block.stop - 1)
  let indent := ((Text.lines inside).drop 1).find? fun line => !Text.allBlank line
  (indent.map Text.leadingIndent).filter (!·.isEmpty)

/-- The unit of indentation where `indent` is in use: a tab if it holds one. -/
def unitFor (indent default : Text) : Text :=
  if indent.contains '\t' then ['\t'] else default

end SwiftMacros
