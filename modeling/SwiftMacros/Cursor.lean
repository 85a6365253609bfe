import SwiftMacros.Token.Lexer

/-! A cursor on the significant tokens of a source. The tokens before and after it are kept as two
lists, the end of the source apart from them, so that the cursor can never pass it. An operator in
front of the cursor can be split in two; the list is refined by that, and never changed otherwise.
-/

namespace SwiftMacros

/-- A position in a token list: `behind` holds the tokens passed, the last first. -/
structure Cursor where
  source : Text
  behind : List Token
  ahead : List Token
  eof : Token
  deriving Repr, Inhabited

namespace Cursor

/-- The cursor at the first token of a list that ends with the end of the source. -/
def ofTokens (source : Text) (ts : List Token) : Cursor :=
  ⟨source, [], ts.dropLast, ts.getLast?.getD default⟩

/-- The cursor at the first significant token of a source. -/
def ofText (source : Text) : Except SyntaxError Cursor :=
  (Token.tokenize source).map fun ts => ofTokens source (Token.significant ts)

/-- All tokens, the end of the source last. -/
def tokens (c : Cursor) : List Token := c.behind.reverse ++ c.ahead ++ [c.eof]

/-- The number of tokens passed. -/
def position (c : Cursor) : Nat := c.behind.length

/-- The token `n` places ahead; the end of the source stands for all that lie beyond it. -/
def peek (c : Cursor) (n : Nat := 0) : Token := (c.ahead[n]?).getD c.eof

/-- The token `n` places ahead, or behind for a negative `n`. Places before the first token are
counted from the end of the list. -/
def look (c : Cursor) (n : Int) : Token :=
  let i := c.position + n
  let j := if i < 0 then c.tokens.length + i else i
  (c.tokens[j.toNat]?).getD c.eof

/-- The token behind the cursor, or the first token if none has been passed. -/
def previous (c : Cursor) : Token := c.behind.head?.getD c.peek

def isEof (c : Cursor) : Bool := c.ahead.isEmpty

/-- How many tokens those ahead can be split into at most: one for each character, and one for a
token without any. -/
def room (c : Cursor) : Nat := c.ahead.foldl (fun n t => n + max (t.stop - t.start) 1) 0

/-- The source from `first` to the end of the token behind the cursor. -/
def sliceFrom (c : Cursor) (first : Token) : Text :=
  Text.slice c.source first.start c.previous.stop

/-- Moves past `n` tokens, but not past the end of the source. -/
def advance (c : Cursor) (n : Nat) : Cursor :=
  { c with behind := (c.ahead.take n).reverse ++ c.behind, ahead := c.ahead.drop n }

/-- Moves to where `n` tokens have been passed, back or, behind a seek, on. -/
def rewind (c : Cursor) (n : Nat) : Cursor :=
  let k := c.behind.length - n
  let back : Cursor :=
    { c with behind := c.behind.drop k, ahead := (c.behind.take k).reverse ++ c.ahead }
  back.advance (n - c.behind.length)

/-- The cursor at the token that starts at `offset`, if there is one. -/
def seek? (c : Cursor) (offset : Nat) : Option Cursor :=
  let before (t : Token) : Bool := t.start < offset
  let ts := c.behind.reverse ++ c.ahead
  let found : Cursor :=
    { c with behind := (ts.takeWhile before).reverse, ahead := ts.dropWhile before }
  if found.peek.start = offset then some found else none

/-- Splits the operator at the cursor behind its first `n` characters. The second part counts as
directly following the first. -/
def splitOperator (c : Cursor) (n : Nat) : Cursor :=
  match c.ahead with
  | [] => c
  | t :: ts =>
    if t.kind = .operator ∧ n < t.text.length then
      let first := { t with text := t.text.take n, stop := t.start + n }
      let second : Token :=
        ⟨t.kind, t.text.drop n, t.line, t.column + n, t.start + n, t.stop, false, false⟩
      { c with ahead := first :: second :: ts }
    else c

/-- The tokens of a kind with a text, in source order. -/
def find (c : Cursor) (kind : Token.Kind) (text : Text) : List Token :=
  c.tokens.filter fun t => t.kind == kind && t.text == text

end Cursor

end SwiftMacros
