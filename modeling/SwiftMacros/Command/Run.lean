import SwiftMacros.Command.Expand
import SwiftMacros.Expansion.Report
import SwiftMacros.Command.Arguments

/-! The command `fields`. It lists the setters that expansion would make, for one file or for all
sources below a folder. -/

namespace SwiftMacros.Command

variable {m : Type → Type} [Monad m]

/-- The reports on a source, or why it cannot be read. -/
def inspect (fs : Files m) (s : Settings) (source : Path) :
    m (Except Text Expansion.FieldReports) := do
  match ← readSource fs source with
  | .error message => return .error message
  | .ok code =>
    return (Expansion.collectFields (Registry.ofSettings s) code).mapError SyntaxError.message

/-- The rows of a source in the table, each behind `lead`; none if it cannot be read. -/
def fieldRows (lib : Library) (fs : Files m) (s : Settings) (lead : List Text) (source : Path) :
    Session m (Option (List (List Text))) := do
  match ← (inspect fs s source : m _) with
  | .error message =>
    log lib.console .error
      [.words "Failed to inspect ".toList, .shown source.toText, .words ": ".toList, .shown message]
    return none
  | .ok reports =>
    reports.warnings.forM (note lib.console)
    return some <| reports.rows.map fun f =>
      lead ++ [f.declaration, f.kind.name.toList, f.setter.name, f.setter.signature]

/-- Shows the table of what has been found in sources. -/
def showFields (lib : Library) (s : Settings) (path : Path) (columns : List Text)
    (rows : List (List Text)) : Session m Unit :=
  if rows.isEmpty then
    log lib.console .warning
      [.words ("No @".toList ++ s.fluentSetter ++ " fields found in ".toList), .shown path.toText]
  else tabulate lib.console ('@' :: s.fluentSetter ++ " fields".toList) columns rows

/-- The table of the setters in sources, given by the cells that lead their rows and their paths. -/
def listFields (lib : Library) (fs : Files m) (s : Settings) (path : Path) (columns : List Text)
    (sources : List (List Text × Path)) : Session m Nat := do
  let found ← sources.mapM fun (lead, source) => fieldRows lib fs s lead source
  showFields lib s path columns (found.flatMap (·.getD []))
  return if found.any Option.isNone then 1 else 0

def fields (lib : Library) (fs : Files m) (path : Path) : Session m Nat := do
  match ← (opening lib fs [] path : m _) with
  | none =>
    log lib.console .error (notFound path)
    return 1
  | some (isFile, settings, warnings) =>
    warnings.forM (note lib.console)
    let columns := ["Declaration", "Kind", "Field", "Setter Signature"].map String.toList
    match settings with
    | .error e => throw (.settings e)
    | .ok s =>
      if isFile then listFields lib fs s path columns [([], path)]
      else
        let sources ← (sourcesBelow fs path s.fileExtensions : m _)
        listFields lib fs s path ("File".toList :: columns)
          (sources.map fun p => ([p.toText], path.append p))

/-! The program: it reads its arguments and runs the command that they ask for. -/

def run (lib : Library) (fs : Files m) (args : List Text) : m (Ending × Output) := do
  match request args with
  | .error stop => return (.usage stop.code, { stdout := stop.stdout })
  | .ok (.expand r) => (expand lib fs r).finish
  | .ok (.fields path) => (fields lib fs path).finish

end SwiftMacros.Command
