import SwiftMacros.Emoji.Basic

/-! Markup of messages: tags in brackets, such as `[path]` and `[/path]`, which set a style and do
not show. A backslash before a tag makes it show as it is written, and so each other backslash there
is written as two. Emoji stand by their names, and some control characters are left out. -/

namespace SwiftMacros.Markup

/-- What a markup text is made of. -/
inductive Piece where
  | text (t : Text)
  /-- A tag with its brackets, and the backslashes before it. -/
  | tag (backslashes : Nat) (t : Text)
  deriving DecidableEq, Repr, Inhabited

/-- Whether a tag can start with `c`. -/
def startsTag (c : Char) : Bool := ('a' ≤ c && c ≤ 'z') || c == '#' || c == '/' || c == '@'

/-- The tag that a text starts with. It ends at the first closing bracket, and no other one opens
within. -/
def tag? : Text → Option Text
  | '[' :: c :: t =>
    let body := t.takeWhile fun c => c ≠ '[' ∧ c ≠ ']'
    if startsTag c && (t.drop body.length).head? == some ']' then some ('[' :: c :: body ++ [']'])
    else none
  | _ => none

/-- The pieces with a character in front. -/
def consChar (c : Char) : List Piece → List Piece
  | .text t :: ps => .text (c :: t) :: ps
  | ps => .text [c] :: ps

/-- The pieces of a text, of which the first `skip` characters belong to a tag before. -/
def piecesFrom (skip : Nat) : Text → List Piece
  | [] => []
  | c :: t =>
    if 0 < skip then piecesFrom (skip - 1) t
    else
      let backslashes := ((c :: t).takeWhile (· == '\\')).length
      match tag? ((c :: t).drop backslashes) with
      | some tag => .tag backslashes tag :: piecesFrom (backslashes + tag.length - 1) t
      | none => consChar c (piecesFrom 0 t)

def pieces (t : Text) : List Piece := piecesFrom 0 t

def slashes (n : Nat) : Text := List.replicate n '\\'

/-- A piece, written so that it shows as it is. -/
def Piece.escape : Piece → Text
  | .text t => t
  | .tag n t => slashes (2 * n + 1) ++ t

/-- A text as markup that shows it, as far as its tags go. A single backslash at the end is doubled,
so that it does not take in a tag that follows. -/
def escape (t : Text) : Text :=
  let escaped := (pieces t).flatMap Piece.escape
  if escaped.getLast? == some '\\' && escaped.dropLast.getLast? != some '\\' then escaped ++ ['\\']
  else escaped

/-- A text without the backslashes before opening brackets. -/
def dropEscapes : Text → Text
  | '\\' :: '[' :: t => '[' :: dropEscapes t
  | c :: t => c :: dropEscapes t
  | [] => []

/-- What a piece shows. Of the backslashes before a tag each two stand for one, and one that is left
makes the tag show. -/
def Piece.shown : Piece → Text
  | .text t => Emoji.replaceNames (dropEscapes t)
  | .tag n t => slashes (n / 2) ++ if n % 2 = 1 then Emoji.replaceNames t else []

/-- Control characters that are left out: bell, backspace, vertical tab, form feed and carriage
return. -/
def isStripped (c : Char) : Bool := ['\x07', '\x08', '\x0b', '\x0c', '\r'].contains c

/-- The name in a tag, in front of the first `=`, with the mark of a closing tag. -/
def tagName (t : Text) : Text := (t.drop 1).dropLast.takeWhile (· ≠ '=')

/-- A style as tags name it. Each name stands for a style of its own here. -/
def styleName (t : Text) : Text := (Text.trim t).map Char.toLower

/-- The styles that are open behind the pieces of a markup text, if each tag that closes one finds it
open; a closing tag without a name closes the last one. -/
def openStyles (styles : List Text) : List Piece → Option (List Text)
  | [] => some styles
  | .text _ :: ps => openStyles styles ps
  | .tag n t :: ps =>
    if n % 2 = 1 then openStyles styles ps
    else match tagName t with
      | '/' :: name =>
        let style := styleName name
        if style.isEmpty then
          if styles.isEmpty then none else openStyles (styles.drop 1) ps
        else if styles.contains style then openStyles (styles.erase style) ps
        else none
      | name => openStyles (styleName name :: styles) ps

/-- The text that markup shows, unless a tag in it closes what is not open. -/
def render? (t : Text) : Option Text :=
  (openStyles [] (pieces t)).map fun _ =>
    ((pieces t).flatMap Piece.shown).filter (!isStripped ·)

end SwiftMacros.Markup
