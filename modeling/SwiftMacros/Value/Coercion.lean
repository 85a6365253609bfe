import SwiftMacros.Value.Basic
import SwiftMacros.Text.Identifier

/-! The values that count as an integer, a truth value or a text. Integers are also read from truth
values, from numbers without a fraction and from decimal digits; truth values from 0 and 1 and from
words such as `yes` and `off`. Texts and lists have to be such. -/

namespace SwiftMacros

/-- Why a value is not accepted for a field. -/
inductive Invalid where
  | missing
  | notText
  | notInteger
  | unreadableInteger
  | fractional
  | notFinite
  | tooLong
  | notBoolean
  | unreadableBoolean
  | notList
  | tooSmall
  | badName (given : Text)
  deriving DecidableEq, Repr, Inhabited

/-- A field that is not accepted, or one item of it. -/
structure FieldError where
  field : Text
  item : Option Nat := none
  cause : Invalid
  deriving DecidableEq, Repr, Inhabited

/-- How values are taken for what a field asks for. -/
structure Coercions where
  toText : Value → Except Invalid Text
  toInteger : Value → Except Invalid Int
  toBoolean : Value → Except Invalid Bool
  toList : Value → Except Invalid (List Value)

namespace Value

/-- White space as numbers are trimmed of it: that of Unicode without the separators of ASCII. -/
def isNumberBlank (c : Char) : Bool :=
  let n := c.toNat
  (9 ≤ n && n ≤ 13) || n == 32 || n == 0x85 || n == 0xA0 || n == 0x1680 ||
    (0x2000 ≤ n && n ≤ 0x200A) || n == 0x2028 || n == 0x2029 || n == 0x202F || n == 0x205F ||
    n == 0x3000

/-- A text without the white space around the number in it. -/
def trimNumber (t : Text) : Text := Text.dropWhileEnd isNumberBlank (t.dropWhile isNumberBlank)

/-- The most digits that a number can be written with. -/
def maxDigits : Nat := 4300

/-- A number without its leading zeros and the underscores between them; the last one before a
point stays. A minus sign can follow zeros. None if something other than a digit comes first. -/
def dropZeros (t : Text) : Option Text :=
  let isFirst (c : Char) : Bool := ('1' ≤ c && c ≤ '9') || c == '-'
  let isDropped (c : Char) : Bool := c == '0' || c == '_'
  match t with
  | '0' :: r =>
    match r.dropWhile isDropped with
    | [] => some [t.getLast?.getD '0']
    | '.' :: fraction => some ((t.takeWhile isDropped).getLast?.getD '0' :: '.' :: fraction)
    | c :: digits => if isFirst c then some (c :: digits) else none
  | c :: r => if isFirst c then some (c :: r) else none
  | [] => none

/-- A number without a point that nothing but zeros follow, one of them at least. -/
def dropPoint (t : Text) : Text :=
  match t.dropWhile (· ≠ '.') with
  | _ :: fraction =>
    if !fraction.isEmpty && fraction.all (· == '0') then t.takeWhile (· ≠ '.') else t
  | [] => t

def hasDoubleUnderscore : Text → Bool
  | '_' :: '_' :: _ => true
  | _ :: t => hasDoubleUnderscore t
  | [] => false

/-- A number without the underscores that group its digits, if they stand alone between others. -/
def dropUnderscores (t : Text) : Text :=
  if t.head? == some '_' || t.getLast? == some '_' || hasDoubleUnderscore t then t
  else t.filter (· ≠ '_')

/-- The plain form of an integer: a minus sign or none, and digits. The sign is set aside while
zeros, point and underscores are dropped. -/
def plainInteger? (t : Text) : Option Text :=
  let plain (digits : Text) : Option Text :=
    (dropZeros digits).map fun r => dropUnderscores (dropPoint r)
  match trimNumber t with
  | '+' :: '-' :: _ => none
  | '+' :: r => plain r
  | '-' :: r => (plain r).map ('-' :: ·)
  | r => plain r

/-- The number that decimal digits stand for; there has to be one at least. -/
def digitsValue? (t : Text) : Option Nat :=
  if !t.isEmpty && t.all Char.isDigit then
    some (t.foldl (fun n c => 10 * n + (c.toNat - 48)) 0)
  else none

/-- The integer that a text stands for. Its plain form has no zero in front of other digits. Its
digits can be too many; the sign is not counted among them. -/
def integerOfText (t : Text) : Except Invalid Int :=
  match plainInteger? t with
  | none => .error .unreadableInteger
  | some plain =>
    let isNegative := plain.head? == some '-'
    let digits := if isNegative then plain.drop 1 else plain
    if digits.head? == some '0' && digits ≠ ['0'] then .error .unreadableInteger
    else if maxDigits < (digits.takeWhile Char.isDigit).length then .error .tooLong
    else
      match digitsValue? digits with
      | some n => .ok (if isNegative then -(n : Int) else n)
      | none => .error .unreadableInteger

/-- Whether a number lies strictly between the bounds of 64 bits with a sign, `-2 ^ 63` and
`2 ^ 63`. -/
def isShort (n : Int) : Bool := -9223372036854775808 < n && n < 9223372036854775808

def toInteger : Value → Except Invalid Int
  | integer n => .ok n
  | boolean b => .ok (if b then 1 else 0)
  | double x =>
    match x.toInt? with
    | some n => if isShort n then .ok n else .error .tooLong
    | none => .error .fractional
  | nonFinite => .error .notFinite
  | text t => integerOfText t
  | _ => .error .notInteger

/-- A letter of ASCII in lower case. -/
def lower (c : Char) : Char :=
  if 'A' ≤ c && c ≤ 'Z' then Char.ofNat (c.toNat + 32) else c

def booleanOfText? (t : Text) : Option Bool :=
  let isOneOf (words : List String) : Bool := words.any fun w => t.map lower == w.toList
  if isOneOf ["0", "off", "f", "false", "n", "no"] then some false
  else if isOneOf ["1", "on", "t", "true", "y", "yes"] then some true
  else none

/-- The truth value of 0 or 1. Any other number counts as unreadable as long as it is short. -/
def booleanOfInteger (short : Bool) (n : Int) : Except Invalid Bool :=
  if n = 0 then .ok false
  else if n = 1 then .ok true
  else if short then .error .unreadableBoolean
  else .error .notBoolean

def toBoolean : Value → Except Invalid Bool
  | boolean b => .ok b
  | integer n => booleanOfInteger (isShort n || n == -9223372036854775808) n
  | double x =>
    match x.toInt? with
    | some n => booleanOfInteger (isShort n) n
    | none => .error .notBoolean
  | text t =>
    match booleanOfText? t with
    | some b => .ok b
    | none => .error .unreadableBoolean
  | _ => .error .notBoolean

def toText : Value → Except Invalid Text
  | text t => .ok t
  | _ => .error .notText

def toList : Value → Except Invalid (List Value)
  | list vs => .ok vs
  | _ => .error .notList

/-- The coercions that also take other values for integers and truth values. -/
def lax : Coercions := { toText, toInteger, toBoolean, toList }

end Value

/-- What `read` makes of the entry `key`, or `default` if there is none. -/
def Entries.read {α : Type} (es : Entries) (key : String) (default : α)
    (read : Value → Except (List (Option Nat × Invalid)) α) : Except (List FieldError) α :=
  match es.get? key.toList with
  | none => .ok default
  | some v =>
    (read v).mapError fun errors => errors.map fun (item, cause) => ⟨key.toList, item, cause⟩

/-- A reader of a value that has no items. -/
def single {α : Type} (read : Value → Except Invalid α) (v : Value) :
    Except (List (Option Nat × Invalid)) α :=
  (read v).mapError fun cause => [(none, cause)]

/-- The errors of a field that has not been read. -/
def errorsOf {α : Type} : Except (List FieldError) α → List FieldError
  | .ok _ => []
  | .error errors => errors

end SwiftMacros
