import SwiftMacros.Command.Run
import SwiftMacros.Library.Usual

/-! The program on the files of the system. What a command shows beside the text on the standard
output goes to the standard output as well, before that text. -/

namespace SwiftMacros.SystemFiles

/-- A path as the system takes it. -/
def place (p : Path) : String := String.ofList p.toText

/-- The result of an action, or what the system tells about its failure. -/
def attempt {α : Type} (p : Path) (action : IO α) : IO (Except FileError α) := do
  try
    return .ok (← action)
  catch e => return .error ⟨.other 5 e.toString.toList, p⟩

/-- What the nearest of some folders that is there leads to, for a path that is not. -/
def lookAbove : List Path → IO Files.Status
  | [] => return .noFolder
  | folder :: above => do
    let p := (← IO.currentDir) / place folder
    if ← p.isDir then return .noFolder
    else if ← p.pathExists then return .behindFile
    else lookAbove above

def look (p : Path) : IO Files.Status := do
  let here ← IO.currentDir
  if ← (here / place p).isDir then return .folder
  else if ← (here / place p).pathExists then return .file
  else if ← (here / place p.parent).isDir then return .vacant
  else lookAbove (p.upwards.drop 1)

def filesBelow (p : Path) : IO (List Path) := do
  let folder := (← IO.currentDir) / place p
  let depth := (Path.ofText folder.toString.toList).parts.length
  let inner ← (← folder.walkDir).toList.filterM fun q => return !(← q.isDir)
  return inner.map fun q => ⟨[], (Path.ofText q.toString.toList).parts.drop depth⟩

def read (p : Path) : IO (Except FileError (List UInt8)) := do
  match ← look p with
  | .file => attempt p do return (← IO.FS.readBinFile (place p)).toList
  | .folder => return .error ⟨.isFolder, p⟩
  | .behindFile => return .error ⟨.notFolder, p⟩
  | .vacant | .noFolder => return .error ⟨.notFound, p⟩

def absolute (p : Path) : IO Path := do
  return ((Path.ofText (← IO.currentDir).toString.toList).append p).collapse

/-- The files of the system. Relative paths start at the working folder. -/
def files : Files IO where
  look := look
  filesBelow := filesBelow
  read := read
  makeFolder p := attempt p (IO.FS.createDir (place p))
  put p content := attempt p (IO.FS.writeBinFile (place p) ⟨content.toBytes.toArray⟩)
  absolute := absolute

end SwiftMacros.SystemFiles

def main (args : List String) : IO UInt32 := do
  let (ending, output) ← SwiftMacros.Command.run SwiftMacros.Library.usual
    SwiftMacros.SystemFiles.files (args.map String.toList)
  output.shown.forM fun s => IO.println (String.ofList s.toText)
  IO.print (String.ofList output.stdout)
  return UInt32.ofNat ending.exitCode
