import SwiftMacros.Text.Quoted

/-! UTF-8. Decoding stops at the first bytes that are no character: at a byte that cannot start one,
at a start whose following bytes do not continue it, or at a start that the end of the data cuts
off. An error tells the byte and its position, or the positions of several bytes. -/

namespace SwiftMacros.Text.Utf8

inductive Defect where
  | invalidStart
  | invalidContinuation
  | unexpectedEnd
  deriving DecidableEq, Repr, Inhabited

/-- A defect of `count` bytes at an offset, the first of which is `byte`. -/
structure DecodeError where
  defect : Defect
  byte : UInt8
  offset : Nat
  count : Nat
  deriving DecidableEq, Repr, Inhabited

def Defect.message : Defect → String
  | invalidStart => "invalid start byte"
  | invalidContinuation => "invalid continuation byte"
  | unexpectedEnd => "unexpected end of data"

def isContinuation (b : UInt8) : Bool := 0x80 ≤ b && b < 0xC0

/-- Whether `b` can follow the start byte `first`. The bounds of the second byte leave out forms
that are too long, surrogates, and numbers beyond the last code point. -/
def isSecond (first b : UInt8) : Bool :=
  isContinuation b && !(first == 0xE0 && b < 0xA0) && !(first == 0xED && 0xA0 ≤ b) &&
    !(first == 0xF0 && b < 0x90) && !(first == 0xF4 && 0x90 ≤ b)

/-- The number of bytes of the character that a byte starts; zero if it starts none. -/
def lengthFor (b : UInt8) : Nat :=
  if b < 0x80 then 1
  else if b < 0xC2 then 0
  else if b < 0xE0 then 2
  else if b < 0xF0 then 3
  else if b < 0xF5 then 4
  else 0

/-- The number that a start byte and the bytes behind it stand for. -/
def codePoint (first : UInt8) (rest : List UInt8) : Nat :=
  let lead := match rest.length with
    | 0 => first.toNat
    | 1 => first.toNat % 0x20
    | 2 => first.toNat % 0x10
    | _ => first.toNat % 0x08
  rest.foldl (fun n b => 64 * n + b.toNat % 64) lead

/-- The bytes of `bs` that continue the start byte `first`. -/
def continuing (first : UInt8) : List UInt8 → List UInt8
  | [] => []
  | b :: bs => if isSecond first b then b :: bs.takeWhile isContinuation else []

/-- The characters of bytes that begin at `offset`; the first `skip` bytes have been decoded. -/
def decodeFrom (offset : Nat) : Nat → List UInt8 → Except DecodeError Text
  | _, [] => .ok []
  | skip + 1, _ :: bs => decodeFrom (offset + 1) skip bs
  | 0, b :: bs =>
    match lengthFor b with
    | 0 => .error ⟨.invalidStart, b, offset, 1⟩
    | n + 1 =>
      let rest := (continuing b bs).take n
      if rest.length = n then
        (decodeFrom (offset + 1) n bs).map (Char.ofNat (codePoint b rest) :: ·)
      else if rest.length = bs.length then .error ⟨.unexpectedEnd, b, offset, rest.length + 1⟩
      else .error ⟨.invalidContinuation, b, offset, rest.length + 1⟩

def decode (bs : List UInt8) : Except DecodeError Text := decodeFrom 0 0 bs

def encode (t : Text) : List UInt8 := (String.ofList t).toUTF8.toList

def DecodeError.message (e : DecodeError) : Text :=
  let place :=
    if e.count = 1 then
      "byte 0x".toList ++ hexDigits 2 e.byte.toNat ++ " in position ".toList ++ ofNat e.offset
    else
      "bytes in position ".toList ++ ofNat e.offset ++ '-' :: ofNat (e.offset + e.count - 1)
  "'utf-8' codec can't decode ".toList ++ place ++ ": ".toList ++ e.defect.message.toList

end SwiftMacros.Text.Utf8
