import SwiftMacros.Value.Basic

/-! Readers of TOML: they take a piece off the front of a text or fail. Where a document is wrong is
not told. -/

namespace SwiftMacros.Toml

abbrev Reader := StateT Text Option

namespace Reader

variable {α : Type}

def front : Reader (Option Char) := return (← get).head?

/-- Takes the longest run of characters that satisfy `p`. -/
def run (p : Char → Bool) : Reader Text := do
  let t ← get
  set (t.dropWhile p)
  return t.takeWhile p

/-- Takes `text` if it comes next. -/
def takes (text : String) : Reader Bool := do
  let t ← get
  if text.toList.isPrefixOf t then
    set (t.drop text.length)
    return true
  else return false

def expect (text : String) : Reader Unit := do
  if !(← takes text) then failure

end Reader

def isSpace (c : Char) : Bool := c == ' ' || c == '\t'

def isSpaceOrNewline (c : Char) : Bool := isSpace c || c == '\n'

/-- A control character that can stand neither in a comment nor in a string on one line. -/
def isControl (c : Char) : Bool := (c.toNat < 32 && c != '\t') || c.toNat == 127

def skipSpace : Reader Unit := do
  let _ ← Reader.run isSpace

/-- Passes over a comment up to the end of its line. -/
def skipComment : Reader Unit := do
  if ← Reader.takes "#" then
    let comment ← Reader.run (· ≠ '\n')
    if comment.any isControl then failure

/-- White space, line ends and comments, taken off the front; at most `n` comments. -/
def afterBlanks : Nat → Text → Option Text
  | 0, t => some (t.dropWhile isSpaceOrNewline)
  | n + 1, t => do
    let ((), rest) ← skipComment (t.dropWhile isSpaceOrNewline)
    match rest with
    | '\n' :: rest => afterBlanks n rest
    | rest => some (rest.dropWhile isSpaceOrNewline)

def skipBlanks : Reader Unit := do
  let t ← get
  match afterBlanks t.length t with
  | some rest => set rest
  | none => failure

/-! The strings of TOML. Literal strings stand as they are, basic strings have escapes. A string of
several lines is delimited by three quotes, and can end with one or two quotes of its own. -/

def hexValue? (c : Char) : Option Nat :=
  if c.isDigit then some (c.toNat - 48)
  else if 'a' ≤ c && c ≤ 'f' then some (c.toNat - 87)
  else if 'A' ≤ c && c ≤ 'F' then some (c.toNat - 55)
  else none

/-- The character whose code point the digits give; surrogates are none. -/
def hexChar? (digits : Text) : Option Char := do
  let n ← digits.foldlM (fun n c => (hexValue? c).map (16 * n + ·)) 0
  if h : n.isValidChar then some (Char.ofNatAux n h) else none

def escapedChar? : Char → Option Char
  | 'b' => some '\x08'
  | 't' => some '\t'
  | 'n' => some '\n'
  | 'f' => some '\x0c'
  | 'r' => some '\r'
  | '"' => some '"'
  | '\\' => some '\\'
  | _ => none

/-- Where a basic string is read: in its characters, or in the gap behind a backslash at the end of
a line, before or after the line end. -/
inductive Spot where
  | inside
  | gap (crossed : Bool)
  deriving DecidableEq

/-- The characters of a basic string up to its closing quotes, and what follows them. -/
def basicBody (multiline : Bool) : Spot → Text → Option (Text × Text)
  | _, [] => none
  | spot, c :: t =>
    if spot ≠ .inside ∧ isSpaceOrNewline c then
      basicBody multiline (.gap (spot == .gap true || c == '\n')) t
    else if spot = .gap false then none
    else
      let keep (d : Char) (r : Option (Text × Text)) : Option (Text × Text) :=
        r.map fun (body, rest) => (d :: body, rest)
      match c, t with
      | '"', '"' :: '"' :: rest =>
        if multiline then some ([], rest) else some ([], '"' :: '"' :: rest)
      | '"', rest =>
        if multiline then keep '"' (basicBody multiline .inside rest) else some ([], rest)
      | '\\', 'u' :: a :: b :: d :: e :: rest => do
        keep (← hexChar? [a, b, d, e]) (basicBody multiline .inside rest)
      | '\\', 'U' :: a :: b :: d :: e :: f :: g :: h :: i :: rest => do
        keep (← hexChar? [a, b, d, e, f, g, h, i]) (basicBody multiline .inside rest)
      | '\\', e :: rest =>
        if multiline && isSpaceOrNewline e then basicBody multiline (.gap (e == '\n')) rest
        else do keep (← escapedChar? e) (basicBody multiline .inside rest)
      | _, rest =>
        if isControl c && !(multiline && c == '\n') then none
        else keep c (basicBody multiline .inside rest)

/-- The characters of a literal string of several lines up to its closing quotes. -/
def literalBody : Text → Option (Text × Text)
  | '\'' :: '\'' :: '\'' :: rest => some ([], rest)
  | c :: t =>
    if isControl c && c != '\n' then none
    else (literalBody t).map fun (body, rest) => (c :: body, rest)
  | [] => none

/-- Up to two more quotes behind the closing ones. -/
def extraQuotes (quote : String) : Reader Text := do
  if ← Reader.takes quote then
    if ← Reader.takes quote then return (quote ++ quote).toList
    else return quote.toList
  else return []

/-- What `body` reads from the front. -/
def readBody (body : Text → Option (Text × Text)) : Reader Text := do
  match body (← get) with
  | some (t, rest) =>
    set rest
    return t
  | none => failure

/-- A basic string on one line. -/
def basicString : Reader Text := do
  Reader.expect "\""
  readBody (basicBody false .inside)

/-- A literal string on one line. -/
def literalString : Reader Text := do
  Reader.expect "'"
  let body ← Reader.run (· ≠ '\'')
  if body.any isControl then failure
  Reader.expect "'"
  return body

/-- A string of any of the four kinds. -/
def stringValue : Reader Text := do
  if ← Reader.takes "\"\"\"" then
    let _ ← Reader.takes "\n"
    let body ← readBody (basicBody true .inside)
    return body ++ (← extraQuotes "\"")
  else if ← Reader.takes "'''" then
    let _ ← Reader.takes "\n"
    let body ← readBody literalBody
    return body ++ (← extraQuotes "'")
  else if (← Reader.front) = some '"' then basicString
  else literalString

end SwiftMacros.Toml
