import SwiftMacros.Toml.String

/-! The scalars of TOML other than strings: truth values, dates and times, and numbers. -/

namespace SwiftMacros.Toml

/-- A digit in front of `t`, and how many more digits and single underscores between them follow. -/
def groupedLength? (p : Char → Bool) : Text → Option Nat
  | [] => none
  | c :: t =>
    if p c then
      match t with
      | '_' :: rest =>
        match groupedLength? p rest with
        | some n => some (n + 2)
        | none => some 1
      | rest =>
        match groupedLength? p rest with
        | some n => some (n + 1)
        | none => some 1
    else none

/-- Digits in groups; the underscores are left out. -/
def grouped (p : Char → Bool) : Reader Text := do
  let t ← get
  match groupedLength? p t with
  | some n =>
    set (t.drop n)
    return (t.take n).filter (· ≠ '_')
  | none => failure

def isHexDigit (c : Char) : Bool := (hexValue? c).isSome

/-- The number that digits stand for in a base. -/
def digitsIn (base : Nat) (digits : Text) : Nat :=
  digits.foldl (fun n c => base * n + (hexValue? c).getD 0) 0

/-- An integer behind a marker of its base. -/
def markedInteger : Reader Value := do
  if ← Reader.takes "0x" then return .integer (digitsIn 16 (← grouped isHexDigit))
  else if ← Reader.takes "0b" then
    return .integer (digitsIn 2 (← grouped fun c => c == '0' || c == '1'))
  else if ← Reader.takes "0o" then
    return .integer (digitsIn 8 (← grouped fun c => '0' ≤ c && c ≤ '7'))
  else failure

def sign : Reader Int := do
  if ← Reader.takes "-" then return -1
  else
    let _ ← Reader.takes "+"
    return 1

/-- What `r` reads, or nothing. -/
def orNone {α : Type} (r : Reader α) : Reader (Option α) := (some <$> r) <|> pure none

/-- An exponent with its letter. -/
def exponent : Reader Int := do
  if !((← Reader.takes "e") || (← Reader.takes "E")) then failure
  let s ← sign
  return s * digitsIn 10 (← grouped Char.isDigit)

/-- The digits of a fraction behind its point. -/
def fraction : Reader Text := do
  Reader.expect "."
  grouped Char.isDigit

/-- A decimal number: an integer if it has neither a fraction nor an exponent. -/
def decimalNumber : Reader Value := do
  let s ← sign
  let whole ← if ← Reader.takes "0" then pure ['0'] else grouped Char.isDigit
  let part ← orNone fraction
  let power ← orNone exponent
  if part.isNone && power.isNone then return .integer (s * digitsIn 10 whole)
  else
    let digits := part.getD []
    return .ofDecimal (s * digitsIn 10 (whole ++ digits)) (power.getD 0 - digits.length)

def specialNumber : Reader Value := do
  let _ ← sign
  if (← Reader.takes "inf") || (← Reader.takes "nan") then return .nonFinite else failure

/-- Exactly `n` digits that stand for a number between two bounds. -/
def digitsBetween (n low high : Nat) : Reader Nat := do
  let t ← get
  let digits := t.take n
  let value := digitsIn 10 digits
  if digits.length = n ∧ digits.all Char.isDigit ∧ low ≤ value ∧ value ≤ high then
    set (t.drop n)
    return value
  else failure

def isLeapYear (year : Nat) : Bool := year % 4 == 0 && (year % 100 != 0 || year % 400 == 0)

def daysIn (year month : Nat) : Nat :=
  if month = 2 then (if isLeapYear year then 29 else 28)
  else if month = 4 ∨ month = 6 ∨ month = 9 ∨ month = 11 then 30
  else 31

/-- A date as it is written; whether the day exists is told apart. -/
def date : Reader Bool := do
  let year ← digitsBetween 4 0 9999
  Reader.expect "-"
  let month ← digitsBetween 2 1 12
  Reader.expect "-"
  let day ← digitsBetween 2 1 31
  return 1 ≤ year && day ≤ daysIn year month

def secondFraction : Reader Unit := do
  Reader.expect "."
  let digits ← Reader.run Char.isDigit
  if digits.isEmpty then failure

def time : Reader Unit := do
  let _ ← digitsBetween 2 0 23
  Reader.expect ":"
  let _ ← digitsBetween 2 0 59
  Reader.expect ":"
  let _ ← digitsBetween 2 0 59
  let _ ← orNone secondFraction

def zone : Reader Unit := do
  if (← Reader.takes "Z") || (← Reader.takes "z") then return ()
  else
    if !((← Reader.takes "+") || (← Reader.takes "-")) then failure
    let _ ← digitsBetween 2 0 23
    Reader.expect ":"
    let _ ← digitsBetween 2 0 59

/-- The time behind a date. -/
def timeOfDate : Reader Unit := do
  if !((← Reader.takes "T") || (← Reader.takes "t") || (← Reader.takes " ")) then failure
  time
  let _ ← orNone zone

/-- A date with or without a time, or a time. A date that does not exist is read as none. -/
def moment : Reader (Option Value) := do
  match ← orNone date with
  | some valid =>
    let _ ← orNone timeOfDate
    return if valid then some .moment else none
  | none =>
    time
    return some .moment

/-- A scalar other than a string. -/
def scalar : Reader Value := do
  if ← Reader.takes "true" then return .boolean true
  else if ← Reader.takes "false" then return .boolean false
  else
    match ← orNone moment with
    | some (some v) => return v
    | some none => failure
    | none => markedInteger <|> decimalNumber <|> specialNumber

end SwiftMacros.Toml
