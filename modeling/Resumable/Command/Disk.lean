import Resumable.Command.FileSystem

/-!
# A model of a disk

A disk is a table of files and directories by their places, where a place is the list of names on
the way from the root.
-/

namespace Resumable

/-- What is at a place. -/
inductive Node
  | file (data : Bytes)
  | directory
deriving DecidableEq, Repr

/-- A disk. -/
structure Disk where
  /-- The place that relative paths start from. -/
  here : List Text := []
  nodes : List (List Text × Node) := []
deriving DecidableEq, Repr

namespace Disk

/-- What is at a place. The root is always there. -/
def node? (d : Disk) (place : List Text) : Option Node :=
  if place.isEmpty then some .directory else d.nodes.lookup place

/-- The disk with something at a place. -/
def put (d : Disk) (place : List Text) (n : Node) : Disk :=
  { d with nodes := (place, n) :: d.nodes.filter fun (p, _) => p ≠ place }

/-- The disk with a directory at a place, and with all directories on the way. -/
def putDirectories (d : Disk) (place : List Text) : Disk :=
  ((List.range place.length).map fun k => place.take (k + 1)).foldl
    (fun d p => d.put p .directory) d

/-- The place that a walk along some parts leads to. Every part but the last has to lead to a
directory; the last one may lead nowhere yet. -/
def walk (d : Disk) : List Text → List Text → Except FileFault (List Text)
  | place, [] => .ok place
  | place, part :: rest =>
    match d.node? place with
    | none => .error .noEntry
    | some (.file _) => .error .notDirectory
    | some .directory =>
      if part.isEmpty || part = "." then d.walk place rest
      else if part = ".." then d.walk place.dropLast rest
      else d.walk (place ++ [part]) rest

/-- The place of a path. -/
def place (d : Disk) (path : Text) : Except FileFault (List Text) :=
  if path.isEmpty then .error .noEntry
  else d.walk (if Path.isAbsolute path then [] else d.here) (Path.parts path)

/-- The place where something new is put. Slashes at the end of the path do not matter to it. -/
def newPlace (d : Disk) (path : Text) : Except FileFault (List Text) :=
  if path.isEmpty then .error .noEntry
  else d.walk (if Path.isAbsolute path then [] else d.here) (Path.parts (Path.trimmed path))

/-- What is at a path. -/
def find (d : Disk) (path : Text) : Except FileFault Node := do
  match d.node? (← d.place path) with
  | some n => return n
  | none => throw .noEntry

def kind (d : Disk) (path : Text) : Except FileFault FileKind := do
  match ← d.find path with
  | .file _ => return .file
  | .directory => return .directory

def read (d : Disk) (path : Text) : Except FileFault Bytes := do
  match ← d.find path with
  | .file data => return data
  | .directory => throw .isDirectory

/-- The names right below a place, in order. -/
def namesAt (d : Disk) (place : List Text) : List Text :=
  ((d.nodes.filter fun (p, _) => p.length = place.length + 1 && p.dropLast = place).filterMap
    fun (p, _) => p.getLast?).mergeSort Text.le

def names (d : Disk) (path : Text) : Except FileFault (List Text) := do
  match ← d.find path with
  | .file _ => throw .notDirectory
  | .directory => return d.namesAt (← d.place path)

/-- The disk with a new directory. -/
def makeDirectory (d : Disk) (path : Text) : Except FileFault Disk := do
  let place ← d.newPlace path
  match d.node? place with
  | some _ => throw .exists
  | none => return d.put place .directory

/-- The disk with new contents of a file. A path with a slash at its end names no file. -/
def write (d : Disk) (path : Text) (data : Bytes) : Except FileFault Disk := do
  let place ← d.newPlace path
  if path.endsWith "/" then throw .isDirectory
  match d.node? place with
  | some .directory => throw .isDirectory
  | _ => return d.put place (.file data)

/-- Changes the disk unless that fails. -/
def change (f : Disk → Except FileFault Disk) : StateM Disk (Except FileFault Unit) := fun d =>
  match f d with
  | .ok d' => (.ok (), d')
  | .error fault => (.error fault, d)

/-- The operations on a disk. -/
def fileSystem : FileSystem (StateM Disk) where
  workingDirectory := fun d => ("/" ++ Text.join "/" d.here, d)
  kind path := fun d => (d.kind path, d)
  read path := fun d => (d.read path, d)
  names path := fun d => (d.names path, d)
  makeDirectory path := change (·.makeDirectory path)
  write path data := change (·.write path data)

end Disk

end Resumable
