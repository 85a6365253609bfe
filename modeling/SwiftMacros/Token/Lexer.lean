import SwiftMacros.Token.Lexeme

/-! The token list of a source text, trivia included: the lexemes one after the other, ended by a
token of the kind `eof`. Each token is placed by counting the characters and line ends before it. The
significant tokens are those that are no trivia; each is told whether any trivia, and whether a line
end, stands between it and the significant token before it. -/

namespace SwiftMacros

/-- A point of a source: its offset, its line, and the offset at which that line starts. -/
structure Place where
  offset : Nat := 0
  line : Nat := 1
  lineStart : Nat := 0
  deriving DecidableEq, Repr, Inhabited

namespace Place

/-- The point behind the character `c`. -/
def advance (p : Place) (c : Char) : Place :=
  if c = '\n' then ⟨p.offset + 1, p.line + 1, p.offset + 1⟩
  else { p with offset := p.offset + 1 }

def column (p : Place) : Nat := p.offset - p.lineStart

/-- An error met `n` characters after `p`. It names the line of `p`, and counts the column from the
start of that line. -/
def error (p : Place) (e : Token.LexFault) : SyntaxError :=
  ⟨e.fault, p.line, p.offset + e.offset - p.lineStart⟩

end Place

namespace Token

/-- The tokens of a text that starts at `p`. The first `skip` characters belong to a token that has
been read. -/
def tokensFrom : Place → Nat → Text → Except SyntaxError (List Token)
  | p, _, [] => .ok [⟨.eof, [], p.line, p.column, p.offset, p.offset, false, false⟩]
  | p, skip + 1, c :: t => tokensFrom (p.advance c) skip t
  | p, 0, c :: t =>
    match lexeme (c :: t) with
    | .error e => .error (p.error e)
    | .ok (kind, n) => do
      let token : Token :=
        ⟨kind, (c :: t).take n, p.line, p.column, p.offset, p.offset + n, false, false⟩
      return token :: (← tokensFrom (p.advance c) (n - 1) t)

def tokenize (t : Text) : Except SyntaxError (List Token) := tokensFrom {} 0 t

/-- Whether a line end is part of the token: always for `newline`, by its text for a comment. -/
def breaksLine (t : Token) : Bool :=
  t.kind == .newline || (t.kind == .comment && t.text.contains '\n')

/-- The significant tokens of a list, where `newline` and `space` tell of the trivia before it. -/
def significantFrom (newline space : Bool) : List Token → List Token
  | [] => []
  | t :: ts =>
    if t.kind.isTrivia then significantFrom (newline || t.breaksLine) true ts
    else { t with newlineBefore := newline, spaceBefore := space } :: significantFrom false false ts

def significant (ts : List Token) : List Token := significantFrom false false ts

end Token

end SwiftMacros
