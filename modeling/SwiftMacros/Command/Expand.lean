import SwiftMacros.Command.Output
import SwiftMacros.Files.Basic
import SwiftMacros.Text.Basic
import SwiftMacros.Text.Utf8
import SwiftMacros.Expansion.Run
import SwiftMacros.Settings.Load

/-! The sources of a command: the file it is given, or the files below the folder it is given whose
suffix is one of those in the settings. -/

namespace SwiftMacros.Command

variable {m : Type → Type} [Monad m]

/-- The paths of the sources below a folder, seen from it and in order. -/
def sourcesBelow (fs : Files m) (folder : Path) (extensions : List Text) : m (List Path) := do
  return Path.sort ((← fs.filesBelow folder).filter fun p => extensions.contains p.suffix)

/-- The text of a file with its line ends unified, or why it cannot be read. -/
def readSource (fs : Files m) (p : Path) : m (Except Text Text) := do
  match ← fs.read p with
  | .error e => return .error e.message
  | .ok bs =>
    match Text.Utf8.decode bs with
    | .ok t => return .ok (Text.universalLineEnds t)
    | .error e => return .error e.message

/-- A path in the folder that settings for `p` are searched from. -/
def settingsFolder (fs : Files m) (p : Path) : m Path := do
  if ← fs.isFolder p then return p else return p.parent

/-! The command `expand`. It expands one file, to a file or the standard output, or all sources
below a folder, each to its place below the destination. With `check` it writes nothing but tells
which sources would change. A source that fails is not written, and the others still are. -/

structure ExpandRequest where
  path : Path
  out : Option Path := none
  check : Bool := false
  strict : Option Bool := none
  indent : Option Int := none
  trace : Option Path := none
  deriving DecidableEq, Repr, Inhabited

/-- The settings that a request gives itself. -/
def ExpandRequest.settings (r : ExpandRequest) : Entries :=
  (r.strict.map fun b => ("strict_mode".toList, Value.boolean b)).toList ++
    (r.indent.map fun n => ("indent_width".toList, Value.integer n)).toList

/-- Writes the trace of a run; a failure is only logged. -/
def writeTrace (lib : Library) (fs : Files m) (p : Path) (r : Expansion.Result) : Session m Unit := do
  match ← fs.write p (.trace r.events) with
  | .ok () => log lib.console .info [.words "Trace saved to ".toList, .path p.toText]
  | .error e => log lib.console .error [.words "Failed to write trace: ".toList, .shown e.message]

/-- A source that could not be read or written. -/
def failed (message : Text) (path : Option Text) : Expansion.Result :=
  { success := false, diagnostics := [{ message, path }] }

/-- A text with a line end behind it. -/
def withLineEnd (t : Text) : Text := if t.getLast? = some '\n' then t else t ++ ['\n']

/-- Puts the result of a run in its place. -/
def deliver (lib : Library) (fs : Files m) (source : Path) (out : Option Path)
    (r : Expansion.Result) : Session m Expansion.Result := do
  match out with
  | none =>
    write (withLineEnd r.code)
    return r
  | some p =>
    match ← fs.write p (.bytes (Text.Utf8.encode r.code)) with
    | .ok () =>
      log lib.console .success
        [.words "Expanded: ".toList, .path source.toText, .words " -> ".toList, .path p.toText]
      return r
    | .error e =>
      log lib.console .error
        [.words "Failed to write ".toList, .shown p.toText, .words ": ".toList, .shown e.message]
      return { failed e.message none with code := r.code }

/-- What is done with a run. -/
def finishRun (lib : Library) (fs : Files m) (check : Bool) (source : Path) (out : Option Path)
    (r : Expansion.Result) : Session m Expansion.Result := do
  if !r.success then
    r.errors.forM fun e => log lib.console .error [.shown e]
    return r
  else if check then return r
  else deliver lib fs source out r

/-- Expands one source. -/
def expandSource (lib : Library) (fs : Files m) (s : Settings) (check : Bool) (source : Path)
    (out trace : Option Path) : Session m Expansion.Result := do
  match ← (readSource fs source : m _) with
  | .error message =>
    log lib.console .error
      [.words "Failed to read ".toList, .shown source.toText, .words ": ".toList, .shown message]
    return failed message (some source.toText)
  | .ok code =>
    if Expansion.overflows s (Registry.ofSettings s) code then throw (.indent s.indentWidth)
    else
      let r := Expansion.run s (Registry.ofSettings s) code (some source.toText)
      r.warnings.forM (note lib.console)
      match trace with
      | some p => writeTrace lib fs p r
      | none => pure ()
      finishRun lib fs check source out r

/-- Whether a source as it is now differs from the result of its run. -/
def isChanged (fs : Files m) (source : Path) (r : Expansion.Result) : Session m Bool := do
  match ← (readSource fs source : m _) with
  | .ok code => return code != r.code
  | .error message => throw (.source message)

/-- Whether a source that is only checked, and whose run succeeds, would change. -/
def wouldChange (fs : Files m) (check : Bool) (source : Path) (r : Expansion.Result) :
    Session m Bool :=
  if check && r.success then isChanged fs source r else return false

/-- What came of a source: the name it is reported by, the result, and whether it would change. -/
structure Outcome where
  name : Text
  result : Expansion.Result
  pending : Bool

/-- Expands a source that is reported by `name`. -/
def expandNamed (lib : Library) (fs : Files m) (s : Settings) (check : Bool) (name : Text)
    (source : Path) (out trace : Option Path) : Session m Outcome := do
  let result ← expandSource lib fs s check source out trace
  return ⟨name, result, ← wouldChange fs check source result⟩

/-- The table of the sources that failed, or the message that none did. -/
def summarize (lib : Library) (outcomes : List Outcome) : Session m Unit := do
  let failures := outcomes.filter fun o => !o.result.success
  let passed := Text.ofNat (outcomes.length - failures.length)
  if failures.isEmpty then
    log lib.console .success [.words ("Batch Complete: ".toList ++ passed ++
      '/' :: Text.ofNat outcomes.length ++ " files expanded.".toList)]
  else
    let issues (r : Expansion.Result) : Text :=
      if r.hasErrors then Text.join "; ".toList r.errors else "Unknown Error".toList
    tabulate lib.console "Expansion Report".toList ["File".toList, "Status".toList, "Issues".toList]
      (failures.map fun o => [o.name, "❌ Failed".toList, issues o.result])
    emit (.line ("\nSummary: ".toList ++ passed ++ " Passed, ".toList ++
      Text.ofNat failures.length ++ " with Issues.".toList))

/-- The code that the outcomes of sources end with: 1 if one failed or would change. -/
def exitCode (outcomes : List Outcome) : Nat :=
  if outcomes.any (fun o => !o.result.success) || !(outcomes.filter (·.pending)).isEmpty then 1 else 0

/-- Reports on all sources. -/
def conclude (lib : Library) (check isFolder : Bool) (outcomes : List Outcome) : Session m Nat := do
  if isFolder || outcomes.any fun o => !o.result.success then summarize lib outcomes
  if check then
    let pending := outcomes.filter (·.pending)
    pending.forM fun o =>
      log lib.console .warning [.words "Would expand: ".toList, .path o.name]
    if pending.isEmpty then log lib.console .success [.words "Nothing to expand.".toList]
  return exitCode outcomes

/-- The message that a folder has no sources. The extensions stand in it as they are given. -/
def noSources (s : Settings) (folder : Path) : List Console.Part :=
  [.markup ("No ".toList ++ Text.join ", ".toList s.fileExtensions ++ " files found in ".toList),
    .shown folder.toText]

/-- Expands the sources below a folder. -/
def expandFolder (lib : Library) (fs : Files m) (s : Settings) (r : ExpandRequest) :
    Session m Nat := do
  if r.out.isNone && !r.check then
    log lib.console .error [.words "Directory expansion requires --out destination directory.".toList]
    return 1
  else
    let sources ← (sourcesBelow fs r.path s.fileExtensions : m _)
    if sources.isEmpty then
      log lib.console .warning (noSources s r.path)
      return 0
    else
      log lib.console .info
        [.words ("Processing ".toList ++ Text.ofNat sources.length ++ " files from ".toList),
          .shown r.path.toText, .words "...".toList]
      let outcomes ← sources.mapM fun p => do
        let out := r.out.map (·.append p)
        let trace := if r.trace.isSome then out.map (·.withSuffix ".trace.json".toList) else none
        expandNamed lib fs s r.check p.toText (r.path.append p) out trace
      conclude lib r.check true outcomes

/-- What a command finds at its path: nothing, or whether it is a file, and the settings for it. -/
def opening (lib : Library) (fs : Files m) (given : Entries) (path : Path) :
    m (Option (Bool × Except Settings.LoadError Settings × List Text)) := do
  let isFile ← fs.isFile path
  let isFolder ← fs.isFolder path
  if !isFile && !isFolder then return none
  else
    let folder ← settingsFolder fs path
    return some (isFile, ← Settings.load lib fs given folder)

def notFound (path : Path) : List Console.Part :=
  [.words "Input not found: ".toList, .shown path.toText]

def expand (lib : Library) (fs : Files m) (r : ExpandRequest) : Session m Nat := do
  match ← (opening lib fs r.settings r.path : m _) with
  | none =>
    log lib.console .error (notFound r.path)
    return 1
  | some (isFile, settings, warnings) =>
    warnings.forM (note lib.console)
    match settings with
    | .error (.invalid _) =>
      log lib.console .error [.words "Invalid configuration".toList]
      return 1
    | .error .malformed => throw (.settings .malformed)
    | .ok s =>
      if isFile then
        let o ← expandNamed lib fs s r.check r.path.name r.path r.out r.trace
        conclude lib r.check false [o]
      else expandFolder lib fs s r

end SwiftMacros.Command
