import Resumable.Assembly.Draft
import Resumable.Command.FileSystem
import Resumable.CodeUnit.Reader
import Resumable.CodeUnit.Writer
import Resumable.Hierarchy

/-!
# Units and classes in files

A unit is in a file in its encoded form or, if the name of the file says so, as assembly. A class
path collects the classes that some units declare, so that one unit can use the classes of another.
-/

namespace Resumable

/-- The extension of encoded units. -/
def unitExtension : Text := ".unit"

/-- Does a file hold assembly? -/
def isAssembly (path : Text) : Bool := Path.extension path ∈ [(".s" : Text), ".asm"]

/-- Does the name of a file say that it holds a unit? -/
def isUnitFile (path : Text) : Bool := Path.extension path = unitExtension || isAssembly path

/-- The encoded form of what a file holds. -/
def encodedUnit (path : Text) (data : Bytes) : Attempt Bytes :=
  if isAssembly path then return (← Assembly.parse ⟨data⟩).encode else .ok data

/-- The superclasses of some classes. -/
abbrev Classpath := List (Text × Text)

namespace Classpath

/-- The class path with the classes of one more unit. The first declaration of a name counts. -/
def add (cp : Classpath) (u : CodeUnit) : Classpath :=
  cp ++ u.classes.map fun c => (c.name, if c.super.isEmpty then ClassName.object else c.super)

/-- Looks a class up. -/
def resolver (cp : Classpath) : Resolver := fun name => cp.lookup name

end Classpath

namespace FileSystem

variable {m : Type → Type} [Monad m] (fs : FileSystem m)

/-- The outcome of work that may fail, as a value. -/
def outcomeOf {α : Type} (x : ExceptT Failure m α) : ExceptT Failure m (Attempt α) :=
  ExceptT.lift x.run

/-- The encoded unit in a file. -/
def unitBytes (path : Text) : ExceptT Failure m Bytes := do
  match ← fs.contents path with
  | .ok data => ExceptT.mk (pure (encodedUnit path data))
  | .error e => throw (.error e)

/-- The unit in a file. -/
def unit (path : Text) : ExceptT Failure m CodeUnit := do
  match CodeUnit.decode (← fs.unitBytes path) with
  | .ok u => return u
  | .error e => throw (.error e)

/-- Adds the classes of the unit in a file, if it holds one. -/
def addIfUnit (cp : Classpath) (path : Text) : ExceptT Failure m Classpath := do
  match ← outcomeOf (fs.unit path) with
  | .ok u => return cp.add u
  | .error (.error _) => return cp
  | .error f => throw f

/-- Adds the classes of the units in some files. -/
def addUnits (cp : Classpath) (paths : List Text) : ExceptT Failure m Classpath :=
  paths.foldlM (fun cp path => return cp.add (← fs.unit path)) cp

/-- Adds the classes of the unit at a path, or of all units below it. -/
def addEntry (cp : Classpath) (entry : Text) : ExceptT Failure m Classpath := do
  match ← fs.files entry with
  | .error e => throw (.error e)
  | .ok found =>
    fs.addUnits cp ((found.map Found.path).filter fun p => p = entry || isUnitFile p)

/-- Errors of several steps as one. -/
def joined (errors : List Error) : Option Error :=
  match errors with
  | [] => none
  | [e] => some e
  | es => some (.ofText (Text.join "; " (es.map Error.message)))

/-- Adds entry after entry, and collects the errors of those that fail. -/
def addEntries : List Text → Classpath → ExceptT Failure m (Classpath × List Error)
  | [], cp => return (cp, [])
  | entry :: rest, cp => do
    let (cp, errors) ← match ← outcomeOf (fs.addEntry cp entry) with
      | .ok cp => pure (cp, [])
      | .error (.error e) => pure (cp, [e])
      | .error f => throw f
    let (cp, more) ← addEntries rest cp
    return (cp, errors ++ more)

/-- The class path of some units, which are skipped if they cannot be read, and of some entries,
which all have to be readable. -/
def classpath (entries units : List Text) : ExceptT Failure m (Except Error Classpath) := do
  let cp ← units.foldlM fs.addIfUnit []
  let (cp, errors) ← fs.addEntries entries cp
  match joined errors with
  | none => return .ok cp
  | some e => return .error e

end FileSystem

end Resumable
