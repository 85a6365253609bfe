import SwiftMacros.Toml.Scalar
import SwiftMacros.Text.Basic

/-! Documents of TOML as tables of values. Headers open tables, keys with dots open tables in them,
and a name that has been given a value or a closed table cannot be given another. -/

namespace SwiftMacros.Toml

abbrev Key := List Text

def isBareKeyChar (c : Char) : Bool := c.isAlphanum || c == '-' || c == '_'

def keyPart : Reader Text := do
  match ← Reader.front with
  | some '"' => basicString
  | some '\'' => literalString
  | _ =>
    let bare ← Reader.run isBareKeyChar
    if bare.isEmpty then failure
    return bare

/-- The parts of a key behind its first; at most `n`. -/
def keyRest : Nat → Reader Key
  | 0 => return []
  | n + 1 => do
    skipSpace
    if ← Reader.takes "." then
      skipSpace
      let part ← keyPart
      return part :: (← keyRest n)
    else return []

def key : Reader Key := do
  let first ← keyPart
  let rest ← keyRest (← get).length
  return first :: rest

/-- What a key has been used for: a table that a header or a dotted key has opened, or a value that
cannot be changed, nor anything in it. -/
inductive Use where
  | opened
  | fixed
  deriving DecidableEq

/-- The uses of keys so far, and those that count from the next header on. -/
structure Uses where
  current : List (Key × Use) := []
  pending : List Key := []

namespace Uses

def isOpened (u : Uses) (k : Key) : Bool := !k.isEmpty && u.current.contains (k, .opened)

/-- Whether the key or one that it lies in is fixed. -/
def isFixed (u : Uses) (k : Key) : Bool :=
  u.current.any fun (other, use) => use = .fixed && other.isPrefixOf k && !k.isEmpty

def add (u : Uses) (k : Key) (use : Use) : Uses := { u with current := (k, use) :: u.current }

/-- Forgets all uses of a key and of what lies in it. -/
def forget (u : Uses) (k : Key) : Uses :=
  { u with current := u.current.filter fun (other, _) => !k.isPrefixOf other }

/-- Lets the pending uses count. -/
def settle (u : Uses) : Uses :=
  ⟨u.pending.map (·, .opened) ++ u.current, []⟩

end Uses

/-- Changes the table at a key, which is made if it is missing. Of a list of tables the last counts,
unless `lists` is false. -/
def atTable (lists : Bool) (f : Entries → Option Entries) : Key → Entries → Option Entries
  | [], es => f es
  | k :: ks, es => do
    match es.get? k with
    | none => return es.set k (.table (← atTable lists f ks []))
    | some (.table inner) => return es.set k (.table (← atTable lists f ks inner))
    | some (.list vs) =>
      match lists, vs.getLast? with
      | true, some (.table inner) =>
        return es.set k (.list (vs.dropLast ++ [.table (← atTable lists f ks inner)]))
      | _, _ => none
    | some _ => none

/-- Puts a value under a name that has none yet. -/
def insertNew (name : Text) (v : Value) (es : Entries) : Option Entries :=
  if (es.get? name).isSome then none else some (es.set name v)

/-- Puts an empty table at the end of the list under a name. -/
def appendTable (name : Text) (es : Entries) : Option Entries :=
  match es.get? name with
  | none => some (es.set name (.list [.table []]))
  | some (.list vs) => some (es.set name (.list (vs ++ [.table []])))
  | some _ => none

def isCompound : Value → Bool
  | .table _ | .list _ => true
  | _ => false

/-- The items of an array behind its first bracket or a comma; at most `n`. -/
def arrayItems (value : Reader Value) : Nat → Reader (List Value)
  | 0 => failure
  | n + 1 => do
    skipBlanks
    if ← Reader.takes "]" then return []
    else
      let v ← value
      skipBlanks
      if ← Reader.takes "]" then return [v]
      else
        Reader.expect ","
        return v :: (← arrayItems value n)

/-- A key and its value. -/
def keyValue (value : Reader Value) : Reader (Key × Value) := do
  let k ← key
  skipSpace
  Reader.expect "="
  skipSpace
  return (k, ← value)

/-- The entries of an inline table, added to those before them; at most `n`. -/
def inlineEntries (value : Reader Value) : Nat → Uses → Entries → Reader Entries
  | 0, _, _ => failure
  | n + 1, uses, es => do
    let (k, v) ← keyValue value
    if uses.isFixed k then failure
    let some es := atTable false (insertNew (k.getLast?.getD []) v) k.dropLast es | failure
    skipSpace
    if ← Reader.takes "\x7d" then return es
    else
      Reader.expect ","
      skipSpace
      inlineEntries value n (if isCompound v then uses.add k .fixed else uses) es

/-- A value; arrays and inline tables nest at most `n` deep. -/
def valueWithin : Nat → Reader Value
  | 0 => failure
  | n + 1 => do
    let bound := (← get).length
    match ← Reader.front with
    | some '"' | some '\'' => return .text (← stringValue)
    | some '[' =>
      Reader.expect "["
      return .list (← arrayItems (valueWithin n) bound)
    | some '\x7b' =>
      Reader.expect "\x7b"
      skipSpace
      if ← Reader.takes "\x7d" then return .table []
      else return .table (← inlineEntries (valueWithin n) bound {} [])
    | _ => scalar

def value : Reader Value := do valueWithin ((← get).length + 1)

/-- A document read so far: its table, the uses of its keys, and the header in force. -/
structure State where
  table : Entries := []
  uses : Uses := {}
  header : Key := []

namespace State

/-- Opens the table that a header names. -/
def openTable (s : State) (k : Key) : Option State := do
  if s.uses.isOpened k || s.uses.isFixed k then none
  else return ⟨← atTable true some k s.table, s.uses.add k .opened, k⟩

/-- Opens a new table at the end of the list that a header names. -/
def openListItem (s : State) (k : Key) : Option State := do
  if s.uses.isFixed k then none
  else
    let table ← atTable true (appendTable (k.getLast?.getD [])) k.dropLast s.table
    return ⟨table, (s.uses.forget k).add k .opened, k⟩

/-- Gives a key below the header a value. -/
def assign (s : State) (k : Key) (v : Value) : Option State := do
  let prefixes := (List.range k.length).tail.map fun n => s.header ++ k.take n
  let parent := s.header ++ k.dropLast
  if prefixes.any s.uses.isOpened || s.uses.isFixed parent then none
  else
    let table ← atTable true (insertNew (k.getLast?.getD []) v) parent s.table
    let uses := { s.uses with pending := prefixes ++ s.uses.pending }
    return ⟨table, if isCompound v then uses.add (s.header ++ k) .fixed else uses, s.header⟩

end State

/-- A header, of a table or of an item of a list. -/
def header (s : State) : Reader State := do
  let s := { s with uses := s.uses.settle }
  let isItem ← Reader.takes "[["
  if !isItem then Reader.expect "["
  skipSpace
  let k ← key
  let opened := if isItem then s.openListItem k else s.openTable k
  Reader.expect (if isItem then "]]" else "]")
  match opened with
  | some s => return s
  | none => failure

/-- What stands on a line before its comment. -/
def statement (s : State) : Reader State := do
  match ← Reader.front with
  | none | some '\n' | some '#' => return s
  | some '[' => header s
  | _ =>
    let (k, v) ← keyValue value
    match s.assign k v with
    | some s => return s
    | none => failure

/-- The lines of a document from some state on; at most `n`. -/
def lines : Nat → State → Reader State
  | 0, s => return s
  | n + 1, s => do
    skipSpace
    let s ← statement s
    skipSpace
    skipComment
    match ← Reader.front with
    | none => return s
    | some _ =>
      Reader.expect "\n"
      lines n s

/-- The table that a document stands for, if it is one of TOML. -/
def ofText? (t : Text) : Option Entries :=
  let t := Text.unifyLineEnds t
  (lines (t.length + 1) {} t).map fun (s, _) => s.table

end SwiftMacros.Toml
