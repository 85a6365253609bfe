import SwiftMacros.Path.Basic
import SwiftMacros.Trace.Basic
import SwiftMacros.Text.Utf8

/-! Files, as the commands use them: a record of what can be asked of and done to a file system.
What is written is a text or a trace. -/

namespace SwiftMacros

/-- What a file holds. A trace is kept as its events. -/
inductive Content where
  | bytes (bs : List UInt8)
  | trace (events : List Trace.Event)
  deriving DecidableEq, Inhabited

/-- The bytes of a file. -/
def Content.toBytes : Content → List UInt8
  | .bytes bs => bs
  | .trace events => Text.Utf8.encode (Trace.toJson events)

namespace Files

inductive Cause where
  | notFound
  | exists
  | notFolder
  | isFolder
  /-- Any other, by its number and as the system tells it. -/
  | other (number : Nat) (text : Text)
  deriving DecidableEq, Repr, Inhabited

/-- The number of a cause. -/
def Cause.number : Cause → Nat
  | notFound => 2
  | .exists => 17
  | notFolder => 20
  | isFolder => 21
  | other number _ => number

/-- A cause in words. -/
def Cause.describe : Cause → Text
  | notFound => "No such file or directory".toList
  | .exists => "File exists".toList
  | notFolder => "Not a directory".toList
  | isFolder => "Is a directory".toList
  | other _ text => text

end Files

/-- Why a path cannot be used. -/
structure FileError where
  cause : Files.Cause
  path : Path
  deriving DecidableEq, Repr, Inhabited

namespace FileError

def message (e : FileError) : Text :=
  "[Errno ".toList ++ Text.ofNat e.cause.number ++ "] ".toList ++ e.cause.describe ++
    ": ".toList ++ Text.quoted e.path.toText

end FileError

/-- What a path leads to. -/
inductive Files.Status where
  | file
  | folder
  /-- Nothing, in a folder that exists. -/
  | vacant
  /-- Nothing, and no folder to hold it. -/
  | noFolder
  /-- Something behind a file, which holds nothing. -/
  | behindFile
  deriving DecidableEq, Repr, Inhabited

/-- A file system in the monad `m`. Files below a folder are given by their paths from it. -/
structure Files (m : Type → Type) where
  look : Path → m Files.Status
  filesBelow : Path → m (List Path)
  read : Path → m (Except FileError (List UInt8))
  /-- Makes a folder where the path leads to nothing in a folder that exists. -/
  makeFolder : Path → m (Except FileError Unit)
  /-- Makes or replaces a file in a folder that exists. -/
  put : Path → Content → m (Except FileError Unit)
  /-- The path from the root, with each `..` taken back. -/
  absolute : Path → m Path

namespace Files

variable {m : Type → Type} [Monad m]

def isFile (fs : Files m) (p : Path) : m Bool := return (← fs.look p) == .file

def isFolder (fs : Files m) (p : Path) : m Bool := return (← fs.look p) == .folder

/-- Makes a folder, if it is not there yet. -/
def ensureFolder (fs : Files m) (p : Path) : m (Except FileError Unit) := do
  match ← fs.look p with
  | .folder => return .ok ()
  | .file => return .error ⟨.exists, p⟩
  | .vacant => fs.makeFolder p
  | .noFolder => return .error ⟨.notFound, p⟩
  | .behindFile => return .error ⟨.notFolder, p⟩

/-- Makes a folder and those above it that are missing, at most `n` levels of them. -/
def ensureFolders (fs : Files m) : Nat → Path → m (Except FileError Unit)
  | 0, p => fs.ensureFolder p
  | n + 1, p => do
    if (← fs.look p) = .noFolder then
      match ← fs.ensureFolders n p.parent with
      | .ok () => fs.ensureFolder p
      | .error e => return .error e
    else fs.ensureFolder p

/-- Writes a file, and makes the folders above it that are missing. -/
def write (fs : Files m) (p : Path) (content : Content) : m (Except FileError Unit) := do
  match ← fs.ensureFolders p.parts.length p.parent with
  | .error e => return .error e
  | .ok () =>
    match ← fs.look p with
    | .file | .vacant => fs.put p content
    | .folder => return .error ⟨.isFolder, p⟩
    | .noFolder => return .error ⟨.notFound, p⟩
    | .behindFile => return .error ⟨.notFolder, p⟩

end Files

namespace Path

/-- The folders that hold a path, itself first and the root last. -/
def upwards (p : Path) : List Path :=
  (List.range (p.parts.length + 1)).map fun n =>
    { p with parts := p.parts.take (p.parts.length - n) }

/-- A path with each `..` taken back the component before it. -/
def collapse (p : Path) : Path :=
  { p with
    parts := p.parts.foldl
      (fun done part => if part = "..".toList then done.dropLast else done ++ [part]) [] }

/-- Whether a list of components comes no later than another, component by component. -/
def partsLe : List Text → List Text → Bool
  | [], _ => true
  | _ :: _, [] => false
  | a :: as, b :: bs => if a = b then partsLe as bs else decide (a < b)

def insertSorted (p : Path) : List Path → List Path
  | [] => [p]
  | q :: qs => if partsLe p.parts q.parts then p :: q :: qs else q :: insertSorted p qs

/-- The paths in the order of their components, compared by code points. -/
def sort (ps : List Path) : List Path := ps.foldr insertSorted []

end Path

end SwiftMacros
