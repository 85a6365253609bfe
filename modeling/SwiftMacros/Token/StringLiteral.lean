import SwiftMacros.Fault

/-! The extent of a string literal. A literal is opened by some pounds and one or three quotes, and
closed by the same quotes and as many pounds. A backslash with as many pounds starts an escape; when
a parenthesis follows, it is an interpolation, which runs to the matching parenthesis and can hold
further literals. The scan keeps the open literals and interpolations on a stack. -/

namespace SwiftMacros.Token

/-- How a string literal is delimited. -/
structure Quoting where
  pounds : Nat
  multiline : Bool
  deriving DecidableEq, Repr, Inhabited

namespace Quoting

def quotes (q : Quoting) : Text :=
  if q.multiline then ['"', '"', '"'] else ['"']

def poundText (q : Quoting) : Text := List.replicate q.pounds '#'

def opening (q : Quoting) : Text := q.poundText ++ q.quotes

def closing (q : Quoting) : Text := q.quotes ++ q.poundText

def escape (q : Quoting) : Text := '\\' :: q.poundText

/-- The delimiters of the literal that `t` starts with, if it starts with one. -/
def opens? (t : Text) : Option Quoting :=
  let pounds := (t.takeWhile (· == '#')).length
  match t.drop pounds with
  | '"' :: '"' :: '"' :: _ => some ⟨pounds, true⟩
  | '"' :: _ => some ⟨pounds, false⟩
  | _ => none

end Quoting

/-- What is open at a point inside a literal: a literal, with the offset at which it starts, or an
interpolation, with the number of its open parentheses less one. -/
inductive Frame where
  | literal (start : Nat) (quoting : Quoting)
  | interpolation (depth : Nat)
  deriving DecidableEq, Repr, Inhabited

/-- A fault at an offset from the start of the token being read. -/
structure LexFault where
  fault : Fault
  offset : Nat
  deriving DecidableEq, Repr, Inhabited

/-- What the front of the text does to the innermost frame: how the stack changes and how many
characters it takes. -/
def Frame.step (top : Frame) (rest : List Frame) (offset : Nat) (t : Text) :
    Except LexFault (List Frame × Nat) :=
  match top with
  | .literal start q =>
    if q.closing.isPrefixOf t then .ok (rest, q.closing.length)
    else if t.head? = some '\n' ∧ !q.multiline then .error ⟨.unterminatedString, start⟩
    else if q.escape.isPrefixOf t then
      if (t.drop q.escape.length).head? = some '(' then
        .ok (.interpolation 0 :: top :: rest, q.escape.length + 1)
      else .ok (top :: rest, q.escape.length + 1)
    else .ok (top :: rest, 1)
  | .interpolation depth =>
    match Quoting.opens? t with
    | some q => .ok (.literal offset q :: top :: rest, q.opening.length)
    | none =>
      match t.head?, depth with
      | some '(', _ => .ok (.interpolation (depth + 1) :: rest, 1)
      | some ')', 0 => .ok (rest, 1)
      | some ')', d + 1 => .ok (.interpolation d :: rest, 1)
      | _, _ => .ok (top :: rest, 1)

/-- The offset just past the literal whose open parts are `stack`, read from `offset` on. The first
`skip` characters belong to the step before. -/
def scanLiteral : List Frame → Nat → Nat → Text → Except LexFault Nat
  | [], skip, offset, _ => .ok (offset + skip)
  | .literal start _ :: _, _, _, [] => .error ⟨.unterminatedString, start⟩
  | .interpolation _ :: _, _, offset, [] => .error ⟨.unterminatedInterpolation, offset⟩
  | top :: rest, skip + 1, offset, _ :: t => scanLiteral (top :: rest) skip (offset + 1) t
  | top :: rest, 0, offset, c :: t =>
    match top.step rest offset (c :: t) with
    | .error e => .error e
    | .ok (stack, n) => scanLiteral stack (n - 1) (offset + 1) t

/-- The length of the string literal at the front of `t`, which `q` opens. -/
def literalLength (q : Quoting) (t : Text) : Except LexFault Nat :=
  scanLiteral [.literal 0 q] (q.opening.length) 0 t

end SwiftMacros.Token
