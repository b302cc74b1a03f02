import Resumable.Command.Classpath
import Resumable.Command.Report
import Resumable.Command.Settings
import Resumable.Quicksort

/-!
# Batches

A batch transforms many units, in place or into a directory. What happens to one unit does not stop
the others: every unit gets a result of its own, and the report counts them.
-/

namespace Resumable

/-- A unit of a batch. -/
structure Input where
  path : Text
  /-- Its path below the output directory. -/
  relative : Text
deriving DecidableEq, Repr

/-- What became of a unit. -/
inductive Status
  | transformed
  | unchanged
  | failed (e : Error)
deriving DecidableEq, Repr

/-- The name of a status. -/
def Status.name : Status → Text
  | transformed => "transformed"
  | unchanged => "unchanged"
  | failed _ => "failed"

/-- The result for one unit. -/
structure FileResult where
  path : Text
  /-- Where it was written to; empty if it was not written. -/
  output : Text := ∅
  status : Status
  diagnostics : List Text := []
deriving DecidableEq, Repr

namespace FileResult

/-- The error, if the unit failed. -/
def error? (r : FileResult) : Option Error :=
  match r.status with
  | .failed e => some e
  | _ => none

/-- The line about a unit. -/
def line (r : FileResult) : Text :=
  (match r.status with
    | .transformed => "transformed"
    | .unchanged => "unchanged  "
    | .failed _ => "failed     ") ++ " " ++ r.path ++
  (if r.output.isEmpty || r.output = r.path then ∅ else " -> " ++ r.output) ++ "\n"

/-- A member of an object, unless it says nothing. -/
def member (name : Text) (value : Tree) (empty : Bool) : List (Text × Tree) :=
  if empty then [] else [(name, value)]

/-- The entry of a report. -/
def tree (r : FileResult) : Tree :=
  let error := (r.error?.map Error.message).getD ∅
  .object (
    member "path" (.text r.path) false ++
    member "output" (.text r.output) r.output.isEmpty ++
    member "status" (.text r.status.name) false ++
    member "diagnostics" (.list (r.diagnostics.map .text)) r.diagnostics.isEmpty ++
    member "error" (.text error) error.isEmpty)

end FileResult

namespace Batch

/-! ### Reports -/

/-- How many units were transformed. -/
def transformed (rs : List FileResult) : Nat := (rs.filter (·.status = .transformed)).length

/-- How many units were left as they are. -/
def unchanged (rs : List FileResult) : Nat := (rs.filter (·.status = .unchanged)).length

/-- How many units failed. -/
def failed (rs : List FileResult) : Nat := (rs.filterMap FileResult.error?).length

/-- A line for every unit, and one with the counts. -/
def summary (rs : List FileResult) : Text :=
  Text.concat (rs.map FileResult.line) ++ Text.ofNat (transformed rs) ++ " transformed, " ++
    Text.ofNat (unchanged rs) ++ " unchanged, " ++ Text.ofNat (failed rs) ++ " failed\n"

/-- The report as a file. -/
def report (rs : List FileResult) : Text :=
  Tree.render 0 (.object
    [("files", .list (rs.map FileResult.tree)), ("transformed", .number (transformed rs)),
     ("unchanged", .number (unchanged rs)), ("failed", .number (failed rs))]) ++ "\n"

/-- The error of a batch in which units failed. -/
def error? (rs : List FileResult) : Option Error :=
  let failures := rs.filterMap fun r =>
    r.error?.map fun e => { path := r.path, reason := e.message : FailedFile }
  if failures.isEmpty then none else some (.plain (.batch failures))

/-! ### Work -/

/-- How a batch is done. -/
structure Options where
  settings : Settings
  loader : Resolver
  /-- Is nothing to be written? -/
  dryRun : Bool

/-- What a transformation makes of the bytes of a unit: what is to be written, and a result that
does not know yet where. -/
def outcome (o : Options) (path : Text) (data : Bytes) : Attempt (Bytes × FileResult) :=
  let (result, journal) := (Transform.bytes (o.settings.options o.loader) data).outcome
  let diagnostics := journal.diagnostics
  match result with
  | .ok out => .ok (out, { path, status := .transformed, diagnostics })
  | .error (.error e) =>
    .ok (data, { path, diagnostics
                 status := if e = Transform.unchanged then .unchanged else .failed e })
  | .error f => .error f

/-- Is a result to be written? In place, a unit that is unchanged stays as it is. -/
def isWritten (o : Options) (r : FileResult) : Bool :=
  match r.status with
  | .failed _ => false
  | .unchanged => !o.dryRun && !o.settings.output.isEmpty
  | .transformed => !o.dryRun

/-- Where a unit is written to. -/
def destination (o : Options) (input : Input) : Text :=
  if o.settings.output.isEmpty then input.path else Path.join o.settings.output input.relative

variable {m : Type → Type} [Monad m] (fs : FileSystem m)

/-- Writes a unit, into a directory that is made if it is not there. -/
def write (o : Options) (dest : Text) (out : Bytes) : m (Except Error Unit) := do
  let made ← if o.settings.output.isEmpty then pure (.ok ()) else fs.makeAll (Path.directory dest)
  match made with
  | .error e => return .error e
  | .ok _ => fs.replace dest out

/-- Does one unit. -/
def process (o : Options) (input : Input) : ExceptT Failure m FileResult := do
  match ← ExceptT.lift (fs.contents input.path) with
  | .error e => return { path := input.path, status := .failed e }
  | .ok data =>
    let (out, r) ← ExceptT.mk (pure (outcome o input.path data))
    if !isWritten o r then return r
    let dest := destination o input
    match ← ExceptT.lift (write fs o dest out) with
    | .error e => return { r with status := .failed e }
    | .ok _ => return { r with output := dest }

/-- Does units one after the other. -/
def run (o : Options) (inputs : List Input) : ExceptT Failure m (List FileResult) :=
  inputs.mapM (process fs o)

/-! ### Inputs -/

/-- The units that an argument stands for: a file itself, a directory the encoded units below it. -/
def inputsOf (arg : Text) : m (Except Error (List Input)) := do
  match ← fs.kind arg with
  | .error fault => return .error (fault.error "stat" arg)
  | .ok .file => return .ok [{ path := arg, relative := Path.base arg }]
  | .ok .directory =>
    match ← fs.files arg with
    | .error e => return .error e
    | .ok found =>
      return .ok ((found.filter fun f => Path.extension f.path = unitExtension).map fun f =>
        { path := f.path, relative := f.relative })

/-- The units that some arguments stand for, by path. All arguments that cannot be read are told. -/
def collect (args : List Text) : m (Except Error (List Input)) := do
  let found ← args.mapM (inputsOf fs)
  let errors := found.filterMap fun
    | .error e => some e
    | .ok _ => none
  match FileSystem.joined errors with
  | some e => return .error e
  | none =>
    let inputs := found.flatMap fun
      | .ok xs => xs
      | .error _ => []
    return .ok (Quicksort.sort (fun a b => a.path.lt b.path) inputs)

end Batch

end Resumable
