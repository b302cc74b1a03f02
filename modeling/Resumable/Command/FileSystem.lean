import Resumable.Command.Path
import Resumable.Error

/-!
# Files

What the commands need from a file system, and what they build on it: making all directories of a
path and finding all files below a directory. A file system is given by its operations, so that the
commands run on a disk as well as on a model of one.
-/

namespace Resumable

/-- Why an operation on a file fails. -/
inductive FileFault
  | noEntry
  | notDirectory
  | isDirectory
  | exists
  /-- Another reason, in the words of the file system. -/
  | other (text : Text)
deriving DecidableEq, Repr

/-- The text of a fault. -/
def FileFault.message : FileFault → Text
  | .noEntry => "no such file or directory"
  | .notDirectory => "not a directory"
  | .isDirectory => "is a directory"
  | .exists => "file exists"
  | .other text => text

/-- The error of an operation on a path. -/
def FileFault.error (operation path : Text) (fault : FileFault) : Error :=
  .ofText (operation ++ " " ++ path ++ ": " ++ fault.message)

/-- What is at a path. -/
inductive FileKind
  | file
  | directory
deriving DecidableEq, Repr

/-- The operations of a file system. -/
structure FileSystem (m : Type → Type) where
  /-- The directory that relative paths start from. -/
  workingDirectory : m Text
  kind : Text → m (Except FileFault FileKind)
  read : Text → m (Except FileFault Bytes)
  /-- The names in a directory, in order. -/
  names : Text → m (Except FileFault (List Text))
  makeDirectory : Text → m (Except FileFault Unit)
  /-- Replaces the contents of a file, which is made if it is not there. -/
  write : Text → Bytes → m (Except FileFault Unit)

namespace FileSystem

variable {m : Type → Type} [Monad m] (fs : FileSystem m)

/-- The contents of a file. -/
def contents (path : Text) : m (Except Error Bytes) := do
  match ← fs.read path with
  | .ok data => return .ok data
  | .error .isDirectory => return .error (FileFault.isDirectory.error "read" path)
  | .error fault => return .error (fault.error "open" path)

/-- Writes a file. -/
def replace (path : Text) (data : Bytes) : m (Except Error Unit) := do
  return (← fs.write path data).mapError (FileFault.error "open" path)

/-- Makes a directory whose parent is there. That it is there already is no failure. -/
def makeOne (path : Text) : m (Except Error Unit) := do
  match ← fs.makeDirectory path with
  | .ok _ => return .ok ()
  | .error fault =>
    match ← fs.kind path with
    | .ok .directory => return .ok ()
    | _ => return .error (fault.error "mkdir" path)

/-- Makes a directory and all directories that it is in. -/
def makeAll (path : Text) : m (Except Error Unit) := do
  match ← fs.kind path with
  | .ok .directory => return .ok ()
  | .ok .file => return .error (FileFault.notDirectory.error "mkdir" path)
  | .error _ =>
    let parent := Path.parent path
    if parent.isEmpty then fs.makeOne path
    else if _h : parent.size < path.size then
      match ← makeAll parent with
      | .error e => return .error e
      | .ok _ => fs.makeOne path
    else fs.makeOne path
termination_by path.size

/-- A file that was found below a directory. -/
structure Found where
  path : Text
  /-- The path from the directory. -/
  relative : Text
deriving DecidableEq, Repr

/-- All files below some names in a directory, each directory at the place of its name, if `below` finds
what is below the names in another one. -/
def filesAmong (below : Text → Text → List Text → m (Except Error (List Found)))
    (path relative : Text) : (names : List Text) → m (Except Error (List Found))
  | [] => return .ok []
  | name :: rest => do
    let path' := Path.join path name
    let relative' := if relative.isEmpty then name else relative ++ "/" ++ name
    let here ← match ← fs.kind path' with
      | .error fault => pure (.error (fault.error "lstat" path'))
      | .ok .file => pure (.ok [{ path := path', relative := relative' }])
      | .ok .directory =>
        match ← fs.names path' with
        | .error fault => pure (.error (fault.error "open" path'))
        | .ok names => below path' relative' names
    match here with
    | .error e => return .error e
    | .ok found =>
      match ← filesAmong below path relative rest with
      | .error e => return .error e
      | .ok more => return .ok (found ++ more)

/-- All files below some names in a directory. A path is shorter than the system allows, so that `depth`
bounds how deep directories nest. -/
def filesBelow : (depth : Nat) → (path relative : Text) → (names : List Text) →
    m (Except Error (List Found))
  | 0, _, _, _ => return .ok []
  | depth + 1, path, relative, names => fs.filesAmong (filesBelow depth) path relative names

/-- More than a path can have parts. -/
def deepest : Nat := 4096

/-- All files below a path, or the file that is there. -/
def files (path : Text) : m (Except Error (List Found)) := do
  match ← fs.kind path with
  | .error fault => return .error (fault.error "lstat" path)
  | .ok .file => return .ok [{ path, relative := "." }]
  | .ok .directory =>
    match ← fs.names path with
    | .error fault => return .error (fault.error "open" path)
    | .ok names => fs.filesBelow deepest path ∅ names

end FileSystem

end Resumable
