import Resumable.Command.CommandLine

/-!
# The program

The command line on the files of the system. Everything that is decided is decided by
`CommandLine.interpret`; here files are read and written and texts are printed.
-/

namespace Resumable.Main

/-- The fault of a failed operation on files. -/
def faultOf : IO.Error → FileFault
  | .noFileOrDirectory _ _ _ => .noEntry
  | .alreadyExists _ _ _ => .exists
  | .inappropriateType _ 20 _ => .notDirectory
  | .inappropriateType _ _ _ => .isDirectory
  | e => .other (Text.ofString e.toString)

/-- An operation on files, with its fault as a value. -/
def attempt {α : Type} (x : IO α) : IO (Except FileFault α) := do
  try
    return .ok (← x)
  catch e =>
    return .error (faultOf e)

/-- The names in a directory, in order. -/
def namesIn (path : String) : IO (List Text) := do
  let entries ← ((← IO.currentDir) / path).readDir
  return (entries.toList.map fun e => Text.ofString e.fileName).mergeSort Text.le

/-- The kind of what is at a path. -/
def kindOf (path : String) : IO FileKind := do
  match (← ((← IO.currentDir) / path).metadata).type with
  | .dir => return .directory
  | _ => return .file

/-- The files of the system. -/
def fileSystem : FileSystem IO where
  workingDirectory := return Text.ofString (← IO.currentDir).toString
  kind path := attempt (kindOf path.toString)
  read path := attempt do return (← IO.FS.readBinFile path.toString).data.toList
  names path := attempt (namesIn path.toString)
  makeDirectory path := attempt (IO.FS.createDir path.toString)
  write path data := attempt (IO.FS.writeBinFile path.toString ⟨data.toArray⟩)

/-- Writes a text as it is. -/
def putText (stream : IO.FS.Stream) (t : Text) : IO Unit := do
  stream.write ⟨t.bytes.toArray⟩
  stream.flush

/-- The last words of a program that failed. -/
def complaint : Failure → Text
  | .error e =>
    match e.what with
    | .exit message => message ++ "\n"
    | _ => "Error: " ++ e.message ++ "\n"
  | .outOfRange => "Error: index out of range\n"
  | .endless => "Error: no end\n"

end Resumable.Main

open Resumable in
/-- Runs the command line. -/
def main (args : List String) : IO UInt32 := do
  let (result, console) ← CommandLine.run Main.fileSystem (args.map Text.ofString)
  Main.putText (← IO.getStdout) console.stdout
  Main.putText (← IO.getStderr) console.stderr
  match result with
  | .ok _ => return 0
  | .error f =>
    Main.putText (← IO.getStderr) (Main.complaint f)
    return 1
