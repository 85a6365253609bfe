import SwiftMacros.Files.Basic

/-! A file tree in memory. Paths are walked from its root, and a component behind something that is
no folder leads nowhere. Of what lies outside the tree, above its root, only the folders that hold
it are known: nothing can be read there, and what is written there is forgotten. -/

namespace SwiftMacros

inductive FileTree.Node where
  | file (content : Content)
  | folder
  deriving DecidableEq, Inhabited

/-- The nodes of a tree below its root, each with the components that lead to it. -/
structure FileTree where
  nodes : List (List Text × FileTree.Node) := []
  deriving Inhabited

namespace FileTree

/-- The node at components from the root, which is a folder itself. -/
def node? (t : FileTree) (location : List Text) : Option Node :=
  if location = [] then some .folder else (t.nodes.find? fun n => n.1 == location).map Prod.snd

/-- What is found when a path is walked. -/
inductive Place where
  | found (location : List Text) (node : Node)
  /-- Nothing, in a folder that exists. -/
  | vacant (location : List Text)
  | noFolder
  | behindFile
  /-- A folder above the root. -/
  | above
  /-- Nothing, outside the tree. -/
  | outside
  deriving DecidableEq, Inhabited

/-- One component further. -/
def step (t : FileTree) (p : Place) (part : Text) : Place :=
  match p with
  | .found location .folder =>
    let next := if part = "..".toList then location.dropLast else location ++ [part]
    if part = "..".toList ∧ location = [] then .above
    else match t.node? next with
      | some n => .found next n
      | none => .vacant next
  | .found _ (.file _) => .behindFile
  | .vacant _ => .noFolder
  | .above => if part = "..".toList then .above else .outside
  | p => p

/-- Where a path leads to in a tree whose root is `home`. Relative paths start at the root. -/
def walk (home : Text) (t : FileTree) (p : Path) : Place :=
  p.parts.foldl t.step (if p.root = [] ∨ p.root = home then .found [] .folder else .above)

/-- The tree with a node in place of what is at a location. -/
def put (t : FileTree) (location : List Text) (n : Node) : FileTree :=
  if (t.node? location).isSome then
    ⟨t.nodes.map fun m => if m.1 = location then (location, n) else m⟩
  else ⟨t.nodes ++ [(location, n)]⟩

/-- The components of a location behind those of a folder, if it lies below the folder. -/
def below? (folder location : List Text) : Option (List Text) :=
  if folder.isPrefixOf location && folder.length < location.length then
    some (location.drop folder.length)
  else none

/-- All files with their locations. -/
def files (t : FileTree) : List (List Text × Content) :=
  t.nodes.filterMap fun (location, n) =>
    match n with
    | .file content => some (location, content)
    | .folder => none

/-- The files below a folder. -/
def filesBelow (home : Text) (t : FileTree) (p : Path) : List Path :=
  match t.walk home p with
  | .found folder .folder =>
    t.files.filterMap fun (location, _) => (below? folder location).map (⟨[], ·⟩)
  | _ => []

def Place.status : Place → Files.Status
  | .found _ (.file _) => .file
  | .found _ .folder => .folder
  | .vacant _ => .vacant
  | .noFolder => .noFolder
  | .behindFile => .behindFile
  | .above => .folder
  | .outside => .vacant

/-- The tree with a node where a path leads to, unless it leads nowhere. -/
def place (home : Text) (t : FileTree) (p : Path) (n : Node) : Except FileError Unit × FileTree :=
  match t.walk home p with
  | .found location _ | .vacant location => (.ok (), t.put location n)
  | .outside => (.ok (), t)
  | .noFolder => (.error ⟨.notFound, p⟩, t)
  | .behindFile => (.error ⟨.notFolder, p⟩, t)
  | .above => (.error ⟨.isFolder, p⟩, t)

/-- The bytes of the file that a path leads to. -/
def read (home : Text) (t : FileTree) (p : Path) : Except FileError (List UInt8) :=
  match t.walk home p with
  | .found _ (.file content) => .ok content.toBytes
  | .found _ .folder | .above => .error ⟨.isFolder, p⟩
  | .behindFile => .error ⟨.notFolder, p⟩
  | .vacant _ | .noFolder | .outside => .error ⟨.notFound, p⟩

/-- How many folders below the root some components lead, or none if they lead above it. -/
def depth? (parts : List Text) : Option Nat :=
  let next (depth : Nat) (part : Text) : Option Nat :=
    if part = "..".toList then (if depth = 0 then none else some (depth - 1)) else some (depth + 1)
  parts.foldlM next 0

/-- A path from `home`, with each `..` taken back. One that leads above the root is not known any
closer than by the root of all. -/
def absolute (home : Text) (p : Path) : Path :=
  if p.isAbsolute then p.collapse
  else if (depth? p.parts).isNone then ⟨['/'], []⟩
  else { p.collapse with root := home }

/-- A tree as a file system, whose root is `home`. -/
def asFiles (home : Text) : Files (StateM FileTree) where
  look p := return ((← get).walk home p).status
  filesBelow p := return (← get).filesBelow home p
  read p := return (← get).read home p
  makeFolder p := modifyGet fun t => t.place home p .folder
  put p content := modifyGet fun t => t.place home p (.file content)
  absolute p := return absolute home p

end FileTree

end SwiftMacros
