import SwiftMacros.Text.Basic

/-! White space of Unicode: the class that trimming removes and that decides whether a line is
blank. It is wider than what the lexer takes for white space between tokens. -/

namespace SwiftMacros.Text

def isBlank (c : Char) : Bool :=
  let n := c.toNat
  (9 ≤ n && n ≤ 13) || (28 ≤ n && n ≤ 32) || n == 0x85 || n == 0xA0 || n == 0x1680 ||
    (0x2000 ≤ n && n ≤ 0x200A) || n == 0x2028 || n == 0x2029 || n == 0x202F || n == 0x205F ||
    n == 0x3000

/-- Whether nothing but white space occurs. -/
def allBlank (t : Text) : Bool := t.all isBlank

def trimStart (t : Text) : Text := t.dropWhile isBlank

def trimEnd (t : Text) : Text := dropWhileEnd isBlank t

def trim (t : Text) : Text := trimEnd (trimStart t)

/-- The words of a text, which white space divides. -/
def words (t : Text) : List Text :=
  let push (word : Text) (found : List Text) := if word.isEmpty then found else word :: found
  let (word, found) := t.foldr
    (fun c (word, found) => if isBlank c then ([], push word found) else (c :: word, found))
    ([], [])
  push word found

/-- Spaces and tabs, the only characters that an indent is read from. -/
def isIndent (c : Char) : Bool := c == ' ' || c == '\t'

/-- The spaces and tabs that a line starts with. -/
def leadingIndent (line : Text) : Text := line.takeWhile isIndent

/-- What stands before `offset` on its line, with spaces in its place if it is not blank. -/
def indentAt (t : Text) (offset : Nat) : Text :=
  let before := slice t (lineStart t offset) offset
  if allBlank before then before else spaces before.length

/-- The spaces and tabs that the line of `offset` starts with, up to `offset`. -/
def lineIndent (t : Text) (offset : Nat) : Text :=
  leadingIndent (slice t (lineStart t offset) offset)

/-- Removes the least indent of the lines that are not blank from each of them; blank lines become
empty. -/
def dedent (t : Text) : Text :=
  let ls := lines t
  let widths := (ls.filter fun l => !allBlank l).map fun l => (l.takeWhile isBlank).length
  let margin := widths.min?.getD 0
  joinLines (ls.map fun l => if allBlank l then [] else l.drop margin)

end SwiftMacros.Text
