import SwiftMacros.Text.Basic
import SwiftMacros.Text.Quoted

/-! The trace of an expansion. Marks are recorded one after the other; the events of a trace are the
marks with the phase that each lies in. Phases nest: a phase ends before the one that holds it. -/

namespace SwiftMacros

namespace Trace

inductive Mark where
  | start (phase detail : Text)
  | stop
  | found (name target : Text) (line : Int)
  | mutation (site before after : Text)
  | warning (message : Text)
  | inspection (node outcome detail : Text)
  deriving DecidableEq, Repr, Inhabited

/-- A detail of an event. -/
inductive Datum where
  | text (t : Text)
  | number (n : Int)
  deriving DecidableEq, Repr, Inhabited

namespace Mark

def type : Mark → String
  | start _ _ => "phase_start"
  | stop => "phase_end"
  | found _ _ _ => "macro_match"
  | mutation _ _ _ => "source_mutation"
  | warning _ => "warning"
  | inspection _ _ _ => "inspection"

def description : Mark → Text
  | start phase _ => phase
  | stop => "End Phase".toList
  | found name target _ => "Matched ".toList ++ name ++ " on ".toList ++ target
  | mutation site _ _ => "Expanded ".toList ++ site
  | warning message => message
  | inspection node _ _ => "Inspecting '".toList ++ node ++ "'".toList

def details : Mark → List (String × Datum)
  | start _ detail => [("detail", .text detail)]
  | stop => []
  | found name target line =>
    [("macro", .text name), ("target", .text target), ("line", .number line)]
  | mutation _ before after => [("before", .text before), ("after", .text after)]
  | warning _ => [("level", .text "warning".toList)]
  | inspection _ outcome detail => [("outcome", .text outcome), ("detail", .text detail)]

end Mark

/-- A mark, and the index of the event that starts the phase it belongs to. -/
structure Event where
  mark : Mark
  parent : Option Nat
  deriving DecidableEq, Repr, Inhabited

/-- The events of marks of which the first has the index `i`, where `phases` holds the indices of
the open phases, the innermost first. An end without an open phase leaves no event. -/
def eventsFrom : Nat → List Nat → List Mark → List Event
  | _, _, [] => []
  | i, phases, .start phase detail :: ms =>
    ⟨.start phase detail, phases.head?⟩ :: eventsFrom (i + 1) (i :: phases) ms
  | i, p :: phases, .stop :: ms => ⟨.stop, some p⟩ :: eventsFrom (i + 1) phases ms
  | i, [], .stop :: ms => eventsFrom i [] ms
  | i, phases, m :: ms => ⟨m, phases.head?⟩ :: eventsFrom (i + 1) phases ms

def events (ms : List Mark) : List Event := eventsFrom 0 [] ms

end Trace

end SwiftMacros

/-! Traces as JSON: a list of events, each with its type, its description, the index of the event
that starts its phase, and its details. All but ASCII is escaped. -/

namespace SwiftMacros.Trace

/-- A UTF-16 unit as an escape. -/
def unitEscape (n : Nat) : Text := '\\' :: 'u' :: Text.hexDigits 4 n

def jsonChar (c : Char) : Text :=
  let n := c.toNat
  if c = '"' ∨ c = '\\' then ['\\', c]
  else if n = 8 then ['\\', 'b']
  else if n = 12 then ['\\', 'f']
  else if c = '\n' then ['\\', 'n']
  else if c = '\r' then ['\\', 'r']
  else if c = '\t' then ['\\', 't']
  else if 32 ≤ n ∧ n < 127 then [c]
  else if n < 0x10000 then unitEscape n
  else unitEscape (0xD800 + (n - 0x10000) / 0x400) ++ unitEscape (0xDC00 + (n - 0x10000) % 0x400)

def jsonString (t : Text) : Text := '"' :: t.flatMap jsonChar ++ ['"']

def Datum.toJson : Datum → Text
  | text t => jsonString t
  | number n => (toString n).toList

/-- An object, one entry to a line, behind the indent `unit`. -/
def jsonObject (unit : Text) (entries : List (String × Text)) : Text :=
  if entries.isEmpty then "\x7b\x7d".toList
  else
    let lines := entries.map fun (k, v) =>
      unit ++ "  ".toList ++ jsonString k.toList ++ ": ".toList ++ v
    "\x7b\n".toList ++ Text.join ",\n".toList lines ++ '\n' :: unit ++ "\x7d".toList

def Event.toJson (e : Event) : Text :=
  let details := e.mark.details.map fun (k, d) => (k, d.toJson)
  jsonObject "  ".toList
    [("type", jsonString e.mark.type.toList), ("description", jsonString e.mark.description),
      ("parent", (e.parent.map Text.ofNat).getD "null".toList),
      ("metadata", jsonObject "    ".toList details)]

def toJson (es : List Event) : Text :=
  if es.isEmpty then "[]".toList
  else
    let lines := es.map fun e => "  ".toList ++ e.toJson
    "[\n".toList ++ Text.join ",\n".toList lines ++ "\n]".toList

end SwiftMacros.Trace
