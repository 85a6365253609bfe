import SwiftMacros.Text.Basic

/-! Values of settings as they are given, before they are checked. Tables keep the order of their
keys. A number has double precision: `53` binary digits of a mantissa and a power of two, the nearest
to a quotient or to a decimal number. -/

namespace SwiftMacros

/-- The number `mantissa * 2 ^ exponent`. -/
structure Double where
  mantissa : Int
  exponent : Int
  deriving DecidableEq, Repr, Inhabited

namespace Double

/-- The integer nearest to `n / d`; between two the even one. -/
def roundDiv (n d : Nat) : Nat :=
  let q := n / d
  let r := n % d
  if 2 * r < d then q else if d < 2 * r then q + 1 else q + q % 2

/-- The quotient `n / d`, scaled by `2 ^ e`. -/
def scaled (n d : Nat) (e : Int) : Nat × Nat :=
  if 0 ≤ e then (n <<< e.natAbs, d) else (n, d <<< e.natAbs)

/-- The least power of two above `n / d`. -/
def binarySize (n d : Nat) : Int :=
  let size : Int := n.log2 - d.log2
  let (a, b) := scaled n d (-size)
  if a < b then size else size + 1

/-- The nearest number to `n / d`. Numbers close to zero have fewer digits. -/
def ofQuotient (n d : Nat) : Double :=
  let e := max (binarySize n d - 53) (-1074)
  let (a, b) := scaled n d (-e)
  ⟨roundDiv a b, e⟩

/-- The nearest number to `mantissa * 10 ^ exponent`, or none if it is too large. -/
def ofDecimal? (mantissa exponent : Int) : Option Double :=
  let n := mantissa.natAbs
  let size := (toString n).length + exponent
  if n = 0 ∨ size < -400 then some ⟨0, 0⟩
  else if 400 < size then none
  else
    let scale := Nat.pow 10 exponent.natAbs
    let x := if 0 ≤ exponent then ofQuotient (n * scale) 1 else ofQuotient n scale
    if 1024 < binarySize x.mantissa.natAbs 1 + x.exponent then none
    else some ⟨mantissa.sign * x.mantissa, x.exponent⟩

/-- The integer that a number is equal to, if it is one. -/
def toInt? (x : Double) : Option Int :=
  let scale : Int := Int.ofNat (1 <<< x.exponent.natAbs)
  if 0 ≤ x.exponent then some (x.mantissa * scale)
  else if x.mantissa % scale = 0 then some (x.mantissa / scale)
  else none

end Double

inductive Value where
  | null
  | boolean (b : Bool)
  | integer (n : Int)
  /-- A number written as a fraction or with an exponent. -/
  | double (x : Double)
  /-- An infinity, or no number at all. -/
  | nonFinite
  | text (t : Text)
  /-- A date, a time, or both. -/
  | moment
  | list (vs : List Value)
  | table (entries : List (Text × Value))

instance : Inhabited Value := ⟨.null⟩

def Value.ofDecimal (mantissa exponent : Int) : Value :=
  match Double.ofDecimal? mantissa exponent with
  | some x => .double x
  | none => .nonFinite

/-- The entries of a table. -/
abbrev Entries := List (Text × Value)

namespace Entries

def get? (es : Entries) (key : Text) : Option Value :=
  (es.find? fun e => e.1 == key).map Prod.snd

/-- The entries with `v` in place of what `key` has, or at the end. -/
def set (key : Text) (v : Value) : Entries → Entries
  | [] => [(key, v)]
  | e :: es => if e.1 = key then (key, v) :: es else e :: set key v es

end Entries

end SwiftMacros
