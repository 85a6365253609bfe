import SwiftMacros.Text.Basic

/-! Tokens of Swift source. A token knows the place of its first character and the offset just past
its last. Comments, line ends and white space are trivia; every other token also records what kind
of trivia came directly before it. -/

namespace SwiftMacros

namespace Token

inductive Kind where
  | comment | string | float | integer | poundName | atName | identifier | arrow | operator
  | symbol | dot | backslash | newline | whitespace | eof
  deriving DecidableEq, Repr, Inhabited

/-- The name of a kind, as messages show it. -/
def Kind.name : Kind → String
  | comment => "COMMENT"
  | string => "STRING"
  | float => "FLOAT"
  | integer => "INTEGER"
  | poundName => "POUND_IDENT"
  | atName => "AT_IDENT"
  | identifier => "IDENTIFIER"
  | arrow => "ARROW"
  | operator => "OPERATOR"
  | symbol => "SYMBOL"
  | dot => "DOT"
  | backslash => "BACKSLASH"
  | newline => "NEWLINE"
  | whitespace => "WHITESPACE"
  | eof => "EOF"

def Kind.isTrivia : Kind → Bool
  | comment | newline | whitespace => true
  | _ => false

end Token

/-- A lexical unit. Its text is the slice of the source from `start` to `stop`; lines count from 1,
columns from 0. -/
structure Token where
  kind : Token.Kind
  text : Text
  line : Nat
  column : Nat
  start : Nat
  stop : Nat
  newlineBefore : Bool := false
  spaceBefore : Bool := false
  deriving DecidableEq, Repr, Inhabited

namespace Token

/-- Whether the token is of `kind` and reads `text`. -/
def has (t : Token) (kind : Kind) (text : String) : Bool :=
  t.kind == kind && t.text == text.toList

/-- Whether the token reads `text` and is no string literal. -/
def reads (t : Token) (text : Text) : Bool :=
  t.text == text && t.kind != .string && t.kind != .eof

def isSymbol (t : Token) (text : String) : Bool := t.has .symbol text

def isIdentifierIn (t : Token) (words : List String) : Bool :=
  t.kind == .identifier && words.any fun w => t.text == w.toList

def isSymbolIn (t : Token) (marks : List String) : Bool :=
  t.kind == .symbol && marks.any fun m => t.text == m.toList

/-- An opening parenthesis, bracket or brace. -/
def isOpener (t : Token) : Bool := t.isSymbolIn ["(", "[", "\x7b"]

/-- A closing parenthesis, bracket or brace. -/
def isCloser (t : Token) : Bool := t.isSymbolIn [")", "]", "\x7d"]

/-- An operator that starts with `?` or `!`. -/
def isMark (t : Token) : Bool :=
  t.kind == .operator && (t.text.head? == some '?' || t.text.head? == some '!')

/-- An operator that starts with `text`. -/
def isOperatorWith (t : Token) (text : String) : Bool :=
  t.kind == .operator && text.toList.isPrefixOf t.text

end Token

end SwiftMacros
