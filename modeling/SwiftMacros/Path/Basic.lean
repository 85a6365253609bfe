import SwiftMacros.Text.Basic

/-! Paths: components behind a root, which is empty for a relative path. Empty components and `.`
are dropped when a path is read; `..` is kept. -/

namespace SwiftMacros

structure Path where
  root : Text := []
  parts : List Text := []
  deriving DecidableEq, Repr, Inhabited

namespace Path

/-- The pieces between the occurrences of `/`. -/
def pieces : Text → List Text
  | [] => [[]]
  | c :: t =>
    if c = '/' then [] :: pieces t
    else match pieces t with
      | [] => [[c]]
      | p :: ps => (c :: p) :: ps

/-- The root that a text starts with: `/`, or `//` if it starts with just two. -/
def rootOf (t : Text) : Text :=
  match t with
  | '/' :: '/' :: '/' :: _ => ['/']
  | '/' :: '/' :: _ => ['/', '/']
  | '/' :: _ => ['/']
  | _ => []

def ofText (t : Text) : Path :=
  ⟨rootOf t, (pieces t).filter fun p => p ≠ [] ∧ p ≠ ['.']⟩

def toText (p : Path) : Text :=
  match p.root ++ Text.join ['/'] p.parts with
  | [] => ['.']
  | t => t

/-- A path as it is shown once it has been read. -/
def normalize (t : Text) : Text := (ofText t).toText

def isAbsolute (p : Path) : Bool := !p.root.isEmpty

/-- The path without its last component. -/
def parent (p : Path) : Path := { p with parts := p.parts.dropLast }

/-- The last component, or nothing. -/
def name (p : Path) : Text := p.parts.getLast?.getD []

/-- `q` as seen from `p`. -/
def append (p q : Path) : Path :=
  if q.isAbsolute then q else { p with parts := p.parts ++ q.parts }

/-- The last dot of a name with all behind it. A name has no suffix if its last dot is its first
character or its last. -/
def suffixOf (name : Text) : Text :=
  let after := (name.reverse.takeWhile (· ≠ '.')).length
  if 0 < after ∧ after + 1 < name.length then name.drop (name.length - after - 1) else []

def suffix (p : Path) : Text := suffixOf p.name

/-- The path with `s` in place of its suffix. -/
def withSuffix (p : Path) (s : Text) : Path :=
  let stem := p.name.take (p.name.length - p.suffix.length)
  { p with parts := p.parts.dropLast ++ [stem ++ s] }

end Path

end SwiftMacros
