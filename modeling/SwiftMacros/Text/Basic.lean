/-! Text as a list of code points. Offsets, columns and lengths all count code points; a slice runs
from its first offset up to, and without, its second. Lines end at `\n` alone; `\r\n`, and in files a
`\r` alone, are turned into it when a text comes in. Sets of characters are given by closed ranges of
code points, the form in which the tables of character properties are kept. -/

namespace SwiftMacros

abbrev Text := List Char

namespace Text

def slice (t : Text) (start stop : Nat) : Text :=
  (t.drop start).take (stop - start)

/-- The pieces between the occurrences of `\n`; there is always at least one. -/
def lines : Text → List Text
  | [] => [[]]
  | c :: t =>
    if c = '\n' then [] :: lines t
    else match lines t with
      | [] => [[c]]
      | l :: ls => (c :: l) :: ls

/-- The texts one after the other with `sep` between neighbours. -/
def join (sep : Text) : List Text → Text
  | [] => []
  | [t] => t
  | t :: u :: ts => t ++ sep ++ join sep (u :: ts)

def joinLines (ls : List Text) : Text := join ['\n'] ls

/-- The offset at which the line that holds `offset` starts. -/
def lineStart (t : Text) (offset : Nat) : Nat :=
  (t.take offset).length - ((t.take offset).reverse.takeWhile (· ≠ '\n')).length

/-- The offset of the first `\n` at or after `offset`, or the end of the text. -/
def lineEnd (t : Text) (offset : Nat) : Nat :=
  offset + ((t.drop offset).takeWhile (· ≠ '\n')).length

def dropWhileEnd (p : Char → Bool) (t : Text) : Text :=
  (t.reverse.dropWhile p).reverse

def ofNat (n : Nat) : Text := (toString n).toList

def spaces (n : Nat) : Text := List.replicate n ' '

/-- `\n` in place of each `\r\n`. -/
def unifyLineEnds : Text → Text
  | '\r' :: '\n' :: t => '\n' :: unifyLineEnds t
  | c :: t => c :: unifyLineEnds t
  | [] => []

/-- `\n` in place of each `\r\n`, and of each `\r` that stands alone. -/
def universalLineEnds : Text → Text
  | '\r' :: '\n' :: t => '\n' :: universalLineEnds t
  | '\r' :: t => '\n' :: universalLineEnds t
  | c :: t => c :: universalLineEnds t
  | [] => []

def hasCrLf : Text → Bool
  | '\r' :: '\n' :: _ => true
  | _ :: t => hasCrLf t
  | [] => false

/-- `\r\n` in place of each `\n`. -/
def restoreLineEnds (t : Text) : Text :=
  t.flatMap fun c => if c = '\n' then ['\r', '\n'] else [c]

end Text

/-- A set of characters: a list of first and last code points. -/
abbrev CharSet := List (Nat × Nat)

def CharSet.contains (s : CharSet) (c : Char) : Bool :=
  s.any fun r => r.1 ≤ c.toNat && c.toNat ≤ r.2

end SwiftMacros
