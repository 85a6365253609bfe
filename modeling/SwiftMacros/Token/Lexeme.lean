import SwiftMacros.Text.Identifier
import SwiftMacros.Token.StringLiteral

/-! The extent of a number. Digits are the decimal digits of every script, grouped by underscores
after the first; only the digits behind `0x`, `0o` and `0b`, and those of a hexadecimal exponent,
are limited to ASCII. -/

namespace SwiftMacros.Token

def isHexPart (c : Char) : Bool :=
  c.isDigit || ('a' ≤ c && c ≤ 'f') || ('A' ≤ c && c ≤ 'F') || c == '_'

def isOctalPart (c : Char) : Bool := ('0' ≤ c && c ≤ '7') || c == '_'

def isBinaryPart (c : Char) : Bool := c == '0' || c == '1' || c == '_'

/-- The length of the longest start of `t` whose characters all satisfy `p`. -/
def runLength (p : Char → Bool) (t : Text) : Nat := (t.takeWhile p).length

/-- The length of a decimal digit with the digits and underscores after it. -/
def digitsLength? : Text → Option Nat
  | c :: t => if Text.isDecimal c then some (1 + runLength Text.isDigitPart t) else none
  | [] => none

/-- The length of the run of `p` after a marker such as `0x`; the run must not be empty. -/
def markedLength? (mark : Char) (p : Char → Bool) : Text → Option Nat
  | '0' :: c :: t =>
    let n := runLength p t
    if c = mark ∧ 0 < n then some (2 + n) else none
  | _ => none

/-- Past a sign, if there is one. -/
def signLength : Text → Nat
  | c :: _ => if c = '+' ∨ c = '-' then 1 else 0
  | [] => 0

/-- The length of a decimal exponent: a letter `e`, a sign or none, and digits. -/
def exponentLength? : Text → Option Nat
  | c :: t =>
    if c = 'e' ∨ c = 'E' then
      let sign := signLength t
      (digitsLength? (t.drop sign)).map (1 + sign + ·)
    else none
  | [] => none

/-- The length of a binary exponent: a letter `p`, a sign or none, and ASCII digits. -/
def binaryExponentLength? : Text → Option Nat
  | c :: t =>
    if c = 'p' ∨ c = 'P' then
      let sign := signLength t
      let n := runLength (fun d => d.isDigit || d == '_') (t.drop sign)
      if 0 < n then some (1 + sign + n) else none
    else none
  | [] => none

/-- The length of a hexadecimal fraction with its point, or zero. -/
def hexFractionLength : Text → Nat
  | '.' :: t => match runLength isHexPart t with
    | 0 => 0
    | n => 1 + n
  | _ => 0

def hexFloatLength? (t : Text) : Option Nat := do
  let whole ← markedLength? 'x' isHexPart t
  let fraction := hexFractionLength (t.drop whole)
  let exponent ← binaryExponentLength? (t.drop (whole + fraction))
  return whole + fraction + exponent

def decimalFloatLength? (t : Text) : Option Nat := do
  let whole ← digitsLength? t
  match t.drop whole with
  | '.' :: r =>
    match digitsLength? r with
    | some n =>
      let mantissa := whole + 1 + n
      return mantissa + (exponentLength? (t.drop mantissa)).getD 0
    | none => none
  | r => (exponentLength? r).map (whole + ·)

/-- The length of the floating literal at the front of `t`. -/
def floatLength? (t : Text) : Option Nat :=
  (hexFloatLength? t).or (decimalFloatLength? t)

/-- The length of the integer literal at the front of `t`. A marker without digits leaves the zero
before it. -/
def integerLength? (t : Text) : Option Nat :=
  (markedLength? 'x' isHexPart t).or <|
  (markedLength? 'o' isOctalPart t).or <|
  (markedLength? 'b' isBinaryPart t).or (digitsLength? t)

/-! The classes of lexemes. `lexeme` decides which class the front of a text belongs to and how many
characters it takes. String literals and block comments come first; of the other classes the first
that fits wins, in the order of `classes`. Block comments nest, so a comment ends at the `*/` that
closes its first `/*`. -/

/-- The offset just past the comment of which `depth` levels are open, read from `offset` on; none
if the text ends first. The first `skip` characters belong to the delimiter before. -/
def scanComment : Nat → Nat → Nat → Text → Option Nat
  | 0, skip, offset, _ => some (offset + skip)
  | _ + 1, _, _, [] => none
  | depth + 1, skip + 1, offset, _ :: t => scanComment (depth + 1) skip (offset + 1) t
  | depth + 1, 0, offset, c :: t =>
    match c, t with
    | '/', '*' :: _ => scanComment (depth + 2) 1 (offset + 1) t
    | '*', '/' :: _ => scanComment depth 1 (offset + 1) t
    | _, _ => scanComment (depth + 1) 0 (offset + 1) t

/-- The length of the block comment at the front of `t`, if it is one that ends. -/
def commentLength? (t : Text) : Option Nat := scanComment 1 2 0 t

def isSpaceChar (c : Char) : Bool := c == ' ' || c == '\t' || c == '\x0c' || c == '\r'

def isSymbolChar (c : Char) : Bool := "()\x7b\x7d[],:;".toList.contains c

def isOperatorChar (c : Char) : Bool := "/=-+!*%<>&|^~?".toList.contains c

def lineCommentLength? (t : Text) : Option Nat :=
  if "//".toList.isPrefixOf t then some (runLength (· ≠ '\n') t) else none

def newlineLength? : Text → Option Nat
  | '\n' :: _ => some 1
  | '\r' :: '\n' :: _ => some 2
  | _ => none

/-- A run of characters that satisfy `p`, if there is one. -/
def nonemptyRun? (p : Char → Bool) (t : Text) : Option Nat :=
  match runLength p t with
  | 0 => none
  | n => some n

/-- A name: a word character other than a decimal digit, and the word characters after it. -/
def nameLength? : Text → Option Nat
  | c :: t => if Text.isNameStart c then some (1 + runLength Text.isWord t) else none
  | [] => none

def sigilNameLength? (sigil : Char) : Text → Option Nat
  | c :: t => if c = sigil then (nameLength? t).map (1 + ·) else none
  | [] => none

/-- A name in backquotes, which can hold anything but backquotes and line ends. -/
def backquotedLength? : Text → Option Nat
  | '`' :: t =>
    let n := runLength (fun c => c ≠ '`' && c ≠ '\n') t
    if 0 < n ∧ (t.drop n).head? = some '`' then some (n + 2) else none
  | _ => none

def dollarLength? : Text → Option Nat
  | '$' :: t => (nonemptyRun? Text.isWord t).map (1 + ·)
  | _ => none

def identifierLength? (t : Text) : Option Nat :=
  (backquotedLength? t).or <| (dollarLength? t).or (nameLength? t)

def operatorLength? (t : Text) : Option Nat :=
  if "...".toList.isPrefixOf t ∨ "..<".toList.isPrefixOf t then some 3
  else nonemptyRun? isOperatorChar t

def charLength? (p : Char → Bool) : Text → Option Nat
  | c :: _ => if p c then some 1 else none
  | [] => none

def arrowLength? (t : Text) : Option Nat :=
  if "->".toList.isPrefixOf t then some 2 else none

/-- The classes besides string literals and block comments, each with the length of its lexeme at
the front of a text. -/
def classes : List (Kind × (Text → Option Nat)) :=
  [(.comment, lineCommentLength?), (.newline, newlineLength?),
    (.whitespace, nonemptyRun? isSpaceChar), (.float, floatLength?), (.integer, integerLength?),
    (.poundName, sigilNameLength? '#'), (.atName, sigilNameLength? '@'),
    (.identifier, identifierLength?), (.arrow, arrowLength?), (.symbol, charLength? isSymbolChar),
    (.operator, operatorLength?), (.dot, charLength? (· == '.')),
    (.backslash, charLength? (· == '\\'))]

/-- The class and length of a lexeme other than a string literal or a block comment. -/
def simpleLexeme? (t : Text) : Option (Kind × Nat) :=
  classes.findSome? fun (kind, length?) => (length? t).map (kind, ·)

/-- The class and length of the lexeme at the front of a text that is not empty. -/
def lexeme (t : Text) : Except LexFault (Kind × Nat) :=
  match Quoting.opens? t with
  | some q => (literalLength q t).map (Kind.string, ·)
  | none =>
    if "/*".toList.isPrefixOf t then
      match commentLength? t with
      | some n => .ok (.comment, n)
      | none => .error ⟨.unterminatedComment, 0⟩
    else
      match simpleLexeme? t with
      | some l => .ok l
      | none => .error ⟨.unexpectedCharacter (t.head?.getD ' '), 0⟩

end SwiftMacros.Token
