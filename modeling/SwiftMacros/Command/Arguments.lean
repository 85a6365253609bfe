import SwiftMacros.Command.Expand
import SwiftMacros.Text.Blank
import SwiftMacros.Text.Identifier

/-! The arguments of the program. An option can be shortened as long as it stays unique, and its
value follows it as the next argument or behind `=`. Behind `--` every argument is an operand, and
so is a negative number. The first fault that is met ends the program, and a call for help ends it
before faults further on. -/

namespace SwiftMacros.Command

/-- An argument by its form: an operand, the mark `--`, an option with the value attached to it, or
an option that is not known. -/
inductive Word where
  | operand (text : Text)
  | separator
  | option (name : Text) (attached : Option Text)
  | unknown
  deriving DecidableEq, Repr, Inhabited

/-- What reading the arguments answers before any command runs. -/
structure Stop where
  code : Nat
  stdout : Text := []
  deriving DecidableEq, Repr, Inhabited

def misuse : Stop := ⟨2, []⟩

/-- The parts before and behind the first `=`. -/
def splitValue (t : Text) : Text × Option Text :=
  match t.dropWhile (· ≠ '=') with
  | [] => (t, none)
  | _ :: value => (t.takeWhile (· ≠ '='), some value)

/-- Whether `t` is a minus sign and a number, of which the digits before a point can be missing. -/
def isNegativeNumber (t : Text) : Bool :=
  let body := if t.getLast? = some '\n' then t.dropLast else t
  match body with
  | '-' :: digits =>
    let rest := digits.dropWhile Text.isDecimal
    (rest.isEmpty && !digits.isEmpty) ||
      (rest.head? == some '.' && !(rest.drop 1).isEmpty && (rest.drop 1).all Text.isDecimal)
  | _ => false

def isLong (t : Text) : Bool := "--".toList.isPrefixOf t

/-- The options that an argument can stand for, with the value attached to it. -/
def matching (names : List Text) (t : Text) : List (Text × Option Text) :=
  if isLong t then
    let (start, value) := splitValue t
    (names.filter start.isPrefixOf).map (·, value)
  else
    names.filterMap fun name =>
      if name = t.take 2 then some (name, some (t.drop 2))
      else if t.isPrefixOf name then some (name, none)
      else none

/-- The form of an argument, where options have the given names; it must not stand for two. -/
def wordOf (names : List Text) (t : Text) : Except Stop Word :=
  let (name, value) := splitValue t
  if t.head? ≠ some '-' ∨ t = ['-'] then .ok (.operand t)
  else if names.contains t then .ok (.option t none)
  else if value.isSome && names.contains name then .ok (.option name value)
  else
    match matching names t with
    | [(name, value)] => .ok (.option name value)
    | _ :: _ :: _ => .error misuse
    | [] => .ok (if isNegativeNumber t || t.contains ' ' then .operand t else .unknown)

/-- The forms of all arguments. -/
def wordsOf (names : List Text) : List Text → Except Stop (List Word)
  | [] => .ok []
  | t :: ts =>
    if t = "--".toList then .ok (.separator :: ts.map .operand)
    else do return (← wordOf names t) :: (← wordsOf names ts)

def helpNames : List Text := ["-h".toList, "--help".toList]

/-- A call for help. It takes no value, but `-h` can be followed by itself, as in `-hh`. -/
def helpStop (name : Text) : Option Text → Stop
  | none => ⟨0, []⟩
  | some attached =>
    if !isLong name && !attached.isEmpty && attached.all (· == 'h') then ⟨0, []⟩ else misuse

/-- The number that a decimal digit stands for. -/
def digitValue? (c : Char) : Option Nat :=
  if c.isDigit then some (c.toNat - 48)
  else
    let script := Text.decimals.find? fun r => r.1 ≤ c.toNat && c.toNat ≤ r.2
    script.map fun r => (c.toNat - r.1) % 10

/-- The number that digits stand for, of which the first has been read as `n`. Single underscores
can stand between digits. -/
def numberFrom? (n : Nat) : Text → Option Nat
  | [] => some n
  | '_' :: c :: t => do numberFrom? (10 * n + (← digitValue? c)) t
  | c :: t => do numberFrom? (10 * n + (← digitValue? c)) t

def naturalOf? (t : Text) : Option Nat :=
  match t with
  | [] => none
  | c :: r => do
    let n ← numberFrom? (← digitValue? c) r
    if (t.filter (· ≠ '_')).length ≤ Value.maxDigits then some n else none

/-- The integer that an argument stands for, with white space around it and a sign or none. -/
def integerOf? (t : Text) : Option Int :=
  match Value.trimNumber t with
  | '-' :: t => (naturalOf? t).map fun n => -(n : Int)
  | '+' :: t => (naturalOf? t).map Int.ofNat
  | t => (naturalOf? t).map Int.ofNat

/-- The arguments of a command read so far: its path, and whether there are some too many. -/
structure Operands where
  path : Option Text := none
  surplus : Bool := false

namespace Operands

/-- The operands with one more, and whether it is the path. -/
def add (o : Operands) (t : Text) : Operands :=
  if o.path.isSome then { o with surplus := true } else { o with path := some t }

/-- The path, once all arguments have been read without any too many. -/
def finish (o : Operands) : Except Stop Path :=
  match o.path, o.surplus with
  | some t, false => .ok (Path.ofText t)
  | _, _ => .error misuse

end Operands

/-- The operands behind a separator. A separator next to the path belongs to it; any other is one
argument too many. -/
def afterSeparator (o : Operands) (adjacent : Bool) (ws : List Word) : Operands :=
  let add (o : Operands) : Word → Operands
    | .operand t => o.add t
    | _ => { o with surplus := true }
  let o := if o.path.isSome && !adjacent then { o with surplus := true } else o
  ws.foldl add o

/-- Options that take no value. -/
def noValue {α : Type} (attached : Option Text) (a : α) : Except Stop α :=
  if attached.isNone then .ok a else .error misuse

/-- The value of an option, attached to it or next to it, and the words behind it. -/
def valueOf (attached : Option Text) (ws : List Word) : Except Stop Text :=
  match attached, ws with
  | some v, _ => .ok v
  | none, .operand v :: _ => .ok v
  | none, _ => .error misuse

def expandNames : List Text :=
  helpNames ++
    ["--out", "--check", "--strict", "--indent", "--json-trace"].map String.toList

/-- The arguments of `expand`, read on from a request. `skip` tells that the next word is the value
of the option before it, and `adjacent` that the word before is the path. -/
def expandRequest (r : ExpandRequest) (o : Operands) (skip adjacent : Bool) :
    List Word → Except Stop ExpandRequest
  | [] => do return { r with path := ← o.finish }
  | w :: ws =>
    if skip then expandRequest r o false false ws
    else match w with
    | .operand t => expandRequest r (o.add t) false o.path.isNone ws
    | .separator => do return { r with path := ← (afterSeparator o adjacent ws).finish }
    | .unknown => expandRequest r { o with surplus := true } false false ws
    | .option name attached =>
      let next (r : ExpandRequest) := expandRequest r o attached.isNone false ws
      if name = "--out".toList then do
        let v ← valueOf attached ws
        next { r with out := some (Path.ofText v) }
      else if name = "--json-trace".toList then do
        let v ← valueOf attached ws
        next { r with trace := some (Path.ofText v) }
      else if name = "--indent".toList then do
        let v ← valueOf attached ws
        match integerOf? v with
        | some n => next { r with indent := some n }
        | none => .error misuse
      else if name = "--check".toList then do
        noValue attached ()
        expandRequest { r with check := true } o false false ws
      else if name = "--strict".toList then do
        noValue attached ()
        expandRequest { r with strict := some true } o false false ws
      else .error (helpStop name attached)

/-- The arguments of `fields`. -/
def fieldsPath (o : Operands) (adjacent : Bool) : List Word → Except Stop Path
  | [] => o.finish
  | w :: ws =>
    match w with
    | .operand t => fieldsPath (o.add t) o.path.isNone ws
    | .separator => (afterSeparator o adjacent ws).finish
    | .unknown => fieldsPath { o with surplus := true } false ws
    | .option name attached => .error (helpStop name attached)

inductive Request where
  | expand (r : ExpandRequest)
  | fields (path : Path)
  deriving DecidableEq, Repr, Inhabited

/-- The request of a command with its arguments. -/
def commandRequest (command : Text) (args : List Text) : Except Stop Request := do
  if command = "expand".toList then
    return .expand (← expandRequest { path := {} } {} false false (← wordsOf expandNames args))
  else if command = "fields".toList then
    return .fields (← fieldsPath {} false (← wordsOf helpNames args))
  else throw misuse

def versionText : Text := "ssg-macro 0.1.0\n".toList

/-- The request of the arguments from some word on; `surplus` tells that there is one too many. -/
def requestFrom (surplus : Bool) : List Word → List Text → Except Stop Request
  | .operand command :: _, _ :: args => do
    let request ← commandRequest command args
    if surplus then throw misuse else return request
  | .unknown :: ws, _ :: args => requestFrom true ws args
  | .option name attached :: _, _ =>
    if name = "--version".toList then
      .error (if attached.isNone then ⟨0, versionText⟩ else misuse)
    else .error (helpStop name attached)
  | _, _ => .error misuse

def request (args : List Text) : Except Stop Request := do
  requestFrom false (← wordsOf (helpNames ++ ["--version".toList]) args) args

end SwiftMacros.Command
