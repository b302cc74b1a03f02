import Resumable.Command.Batch
import Resumable.Command.Flag
import Resumable.Command.Invoke
import Resumable.Command.ProjectFile
import Resumable.Listing

/-!
# The command line

Commands that transform or check units, list them, and call their functions. A project file in the
working directory or above it may set what flags do not.
-/

namespace Resumable

/-- What a command prints. -/
structure Console where
  stdout : Text := ∅
  stderr : Text := ∅
deriving DecidableEq, Repr, Inhabited

/-- Work of a command. What it printed before it failed stays. -/
abbrev CommandM (m : Type → Type) := ExceptT Failure (StateT Console m)

/-- The commands. -/
inductive Command
  | transform
  | check
  | list
  | run
  | browse
deriving DecidableEq, Repr

namespace Command

/-- The command with a name. -/
def ofName? (name : Text) : Option Command :=
  [(("transform" : Text), transform), ("check", check), ("c", check), ("dis", list), ("run", run),
   ("r", run), ("browse", browse), ("i", browse)].lookup name

/-- The flags of all commands together. -/
def globalFlags : List Flag :=
  [⟨["config"], true⟩, ⟨["verbose"], false⟩, ⟨["no-color"], false⟩]

def classpathFlag : Flag := ⟨["cp", "classpath"], true⟩

def verboseFlag : Flag := ⟨["verbose"], false⟩

def transformFlag : Flag := ⟨["transform", "t"], false⟩

/-- The flags of a command. -/
def flags : Command → List Flag
  | transform =>
    [⟨["d"], true⟩, ⟨["report"], true⟩, ⟨["workers"], true⟩, verboseFlag, classpathFlag]
  | check => [verboseFlag, classpathFlag]
  | list => [transformFlag, classpathFlag]
  | run => [transformFlag, classpathFlag, ⟨["timeout"], true⟩]
  | browse => [classpathFlag]

/-- How a command is used. -/
def usage : Command → Text
  | transform => "usage: transform [flags] <file|dir>...\n"
  | check => "usage: check [flags] <file|dir>...\n"
  | list => "usage: dis [flags] <file> [function]\n"
  | run => "usage: run [flags] <file> <function> [args...]\n"
  | browse => "usage: browse [flags] <file>\n"

end Command

namespace CommandLine

variable {m : Type → Type} [Monad m]

/-- Work that prints nothing. -/
def quietly {α : Type} (x : ExceptT Failure m α) : CommandM m α :=
  ExceptT.mk (StateT.lift x.run)

/-- Work on files. -/
def onFiles {α : Type} (x : m α) : CommandM m α := ExceptT.lift (StateT.lift x)

def print (t : Text) : CommandM m Unit :=
  modify fun (c : Console) => { c with stdout := c.stdout ++ t }

def printError (t : Text) : CommandM m Unit :=
  modify fun (c : Console) => { c with stderr := c.stderr ++ t }

/-- Fails with an error. -/
def fail {α : Type} (e : Error) : CommandM m α := throw (.error e)

/-- Fails with an exit code and a message. -/
def exit {α : Type} (message : Text) : CommandM m α := fail (.plain (.exit message))

/-! ### Settings -/

/-- The name of project files. -/
def projectFileName : Text := "asyncify.toml"

/-- A directory and all directories that it is in, from the inside out. -/
def outward (directory : Text) : List Text :=
  let parts := (Path.parts directory).filter fun p => !p.isEmpty
  (List.range (parts.length + 1)).reverse.map fun k => "/" ++ Text.join "/" (parts.take k)

/-- The first of some project files that is there. -/
def firstFile (fs : FileSystem m) : List Text → m (Option Text)
  | [] => return none
  | directory :: rest => do
    let path := Path.join directory projectFileName
    match ← fs.kind path with
    | .ok _ => return some path
    | .error _ => firstFile fs rest

/-- Paths in a project file start from its directory. -/
def placed (path : Text) (s : Settings) : Settings :=
  let place (p : Text) : Text := if Path.isAbsolute p then p else Path.join (Path.directory path) p
  { s with
    output := if s.output.isEmpty then ∅ else place s.output
    classpath := s.classpath.map place }

/-- The settings in a project file. -/
def settingsAt (fs : FileSystem m) (path : Text) : CommandM m Settings := do
  match ← onFiles (fs.contents path) with
  | .error e => fail (.because (.note ("failed to read config file: " ++ e.message)) e)
  | .ok data =>
    match ProjectFile.parse data with
    | .ok s => return placed path s
    | .error fault =>
      match fault.message? with
      | some t => fail (.ofText ("failed to parse config file " ++ path ++ t))
      | none => throw .outOfRange

/-- The settings of the project. -/
def settings (fs : FileSystem m) (globals : Arguments) : CommandM m Settings := do
  match globals.value? "config" with
  | some path => if path.isEmpty then found else settingsAt fs path
  | none => found
where
  found : CommandM m Settings := do
    match ← onFiles (do firstFile fs (outward (← fs.workingDirectory))) with
    | some path => settingsAt fs path
    | none => return {}

/-- The settings with the class path of the flags behind their own. -/
def withClasspath (s : Settings) (a : Arguments) : Settings :=
  { s with classpath := s.classpath ++ a.values "cp" }

/-- The settings with all flags. -/
def withFlags (s : Settings) (a : Arguments) : Settings :=
  withClasspath
    { s with
      output := (a.value? "d").getD s.output
      report := (a.value? "report").getD s.report } a

/-! ### Batches -/

/-- Prints the messages about a unit. -/
def printDiagnostics (r : FileResult) : CommandM m Unit :=
  printError (Text.concat (r.diagnostics.map fun d => "error " ++ r.path ++ ": " ++ d ++ "\n"))

/-- Transforms units; as a check, nothing is written and misuse is an error. -/
def batch (fs : FileSystem m) (s : Settings) (args : List Text) (dryRun : Bool) :
    CommandM m Unit := do
  match ← onFiles (Batch.collect fs args) with
  | .error e => exit e.message
  | .ok inputs =>
    match ← quietly (fs.classpath s.classpath (inputs.map Input.path)) with
    | .error e => exit ("classpath: " ++ e.message)
    | .ok cp =>
      let results ← quietly
        (Batch.run fs { settings := s, loader := cp.resolver, dryRun } inputs)
      results.forM printDiagnostics
      print (Batch.summary results)
      if !s.report.isEmpty && !dryRun then
        if let .error e ← onFiles (fs.replace s.report (Batch.report results).bytes) then
          exit ("write report: " ++ e.message)
      if let some e := Batch.error? results then exit e.message
      if dryRun && results.any (fun r => !r.diagnostics.isEmpty) then exit "await misuse found"

/-! ### One unit -/

/-- The unit that a command is about, transformed if that is wanted, and the classes it can use. -/
def load (fs : FileSystem m) (s : Settings) (a : Arguments) : CommandM m (Bytes × Resolver) := do
  match a.rest with
  | [] => fail (.ofText "missing unit file")
  | path :: _ =>
    let data ← quietly (fs.unitBytes path)
    match ← quietly (fs.classpath (withClasspath s a).classpath [path]) with
    | .error e => fail (.because (.note ("classpath: " ++ e.message)) e)
    | .ok cp =>
      if !a.isOn "transform" then return (data, cp.resolver)
      let (out, journal) := (s.transformed cp.resolver data).outcome
      printError (Text.concat (journal.diagnostics.map fun d => "error " ++ d ++ "\n"))
      match out with
      | .ok out => return (out, cp.resolver)
      | .error f => throw f

/-- The listing of a function and of its continuation, as far as they are there. -/
def listNamed (u : CodeUnit) (name : Text) : Except Error Text := do
  let found := [name, name ++ continuationSuffix].filterMap fun n =>
    (u.findFunction n).bind (u.functions[·]?)
  return Text.concat (← found.mapM u.listFunction)

/-- Lists a unit, or one function of it. -/
def list (fs : FileSystem m) (s : Settings) (a : Arguments) : CommandM m Unit := do
  let (data, _) ← load fs s a
  match CodeUnit.decode data with
  | .error e => fail e
  | .ok u =>
    let name := (a.rest[1]?).getD ∅
    if name.isEmpty then
      let l := u.listing
      print l.text
      if let some e := l.error then fail e
    else
      match listNamed u name with
      | .error e => fail e
      | .ok text =>
        if text.isEmpty then fail (.ofText ("function " ++ name.quoted ++ " not found"))
        print text

/-- Calls a function. -/
def call (fs : FileSystem m) (s : Settings) (a : Arguments) (name : Text) (args : List Text) :
    CommandM m Unit := do
  let (data, loader) ← load fs s a
  match Program.load data { loader } with
  | .error e => fail e
  | .ok p =>
    match p.callText name args .deadline with
    | .ok text => print (text ++ "\n")
    | .error (.error e) => exit e.message
    | .error f => throw f

/-! ### Commands -/

/-- Does what a command says. -/
def perform (fs : FileSystem m) (s : Settings) (c : Command) (a : Arguments) : CommandM m Unit :=
  match c, a.rest with
  | .transform, _ :: _ => batch fs (withFlags s a) a.rest false
  | .check, _ :: _ => batch fs (withFlags s a) a.rest true
  | .list, _ => list fs s a
  | .run, _ :: name :: args => call fs s a name args
  | .browse, [_] => fail (.ofText "browse needs a terminal")
  | _, _ => print c.usage

/-- Reads the arguments of the program and does what they say. -/
def interpret (fs : FileSystem m) (args : List Text) : CommandM m Unit := do
  let orFail (x : Except Error Arguments) : CommandM m Arguments :=
    match x with
    | .ok a => return a
    | .error e => fail e
  let globals ← orFail (Flag.parse Command.globalFlags args)
  let s ← settings fs globals
  match globals.rest with
  | [] => [Command.transform, .check, .list, .run, .browse].forM fun c => print c.usage
  | name :: rest =>
    match Command.ofName? name with
    | none => fail (.ofText ("no help topic for " ++ name.quoted))
    | some c => perform fs s c (← orFail (Flag.parseAll c.flags rest))

/-- What the program prints, and how it ends. -/
def run (fs : FileSystem m) (args : List Text) : m (Attempt Unit × Console) :=
  (interpret fs args).run.run {}

end CommandLine

end Resumable
