import SwiftMacros.Files.Basic
import SwiftMacros.Library.Basic
import SwiftMacros.Settings.Reading
import SwiftMacros.Text.Basic
import SwiftMacros.Toml.Document

/-! Settings from the nearest `pyproject.toml`. The folders are searched from some folder upwards,
and the first such file decides, whether or not it has the table `tool.ssg_macro`. One that is no
TOML is ignored with a warning. Values given directly win over those of the file. -/

namespace SwiftMacros

namespace Settings

/-- Why no settings can be loaded. -/
inductive LoadError where
  /-- Fields that are not accepted. -/
  | invalid (errors : List FieldError)
  /-- A file whose bytes are no text, or with something else in place of the table. -/
  | malformed
  deriving DecidableEq, Repr, Inhabited

/-- What a file says: its settings, or why it is to be ignored. -/
inductive FileSettings where
  | entries (es : Entries)
  | ignored (why : Text)
  | malformed

/-- The table of a name in a table, which is empty if the name is missing. -/
def subtable? (es : Entries) (name : String) : Option Entries :=
  match es.get? name.toList with
  | none => some []
  | some (.table inner) => some inner
  | some _ => none

/-- The settings in a document. -/
def ofDocument (lib : Library) (t : Text) : FileSettings :=
  match Toml.ofText? t with
  | none => .ignored (lib.tomlFault t)
  | some es =>
    match (subtable? es "tool").bind (subtable? · "ssg_macro") with
    | some settings => .entries settings
    | none => .malformed

def ofBytes (lib : Library) (bs : List UInt8) : FileSettings :=
  match Text.Utf8.decode bs with
  | .ok t => ofDocument lib t
  | .error _ => .malformed

variable {m : Type → Type} [Monad m]

/-- The nearest settings file of some folders. -/
def nearestFile (fs : Files m) : List Path → m (Option Path)
  | [] => return none
  | folder :: folders => do
    let p := folder.append (Path.ofText "pyproject.toml".toList)
    if ← fs.isFile p then return some p else nearestFile fs folders

/-- The entries of a file with those given directly in place of them. -/
def override (given es : Entries) : Entries := given.foldl (fun es (key, v) => es.set key v) es

/-- The settings for a folder, and the warnings of loading them. -/
def load (lib : Library) (fs : Files m) (given : Entries) (folder : Path) :
    m (Except LoadError Settings × List Text) := do
  let settle (es : Entries) : Except LoadError Settings :=
    (ofEntries lib.coercions (override given es)).mapError .invalid
  match ← nearestFile fs (← fs.absolute folder).upwards with
  | none => return (settle [], [])
  | some file =>
    let settings := match ← fs.read file with
      | .ok bs => ofBytes lib bs
      | .error e => .ignored e.message
    match settings with
    | .entries es => return (settle es, [])
    | .ignored why =>
      return (settle [], ["Ignoring unreadable ".toList ++ file.toText ++ ": ".toList ++ why])
    | .malformed => return (.error .malformed, [])

end Settings

end SwiftMacros
