import Resumable.CodeUnit.Reader
import Resumable.CodeUnit.Writer
import Resumable.Emission.Machine
import Resumable.Journal

/-!
# Making a unit resumable

Every function of a unit that makes suspending calls is turned into a state machine. It keeps its
name, and its continuation is added at the end of the function table. A function whose suspending
calls cannot be used is reported and left as it is.
-/

namespace Resumable

/-- How a unit is transformed. -/
structure TransformOptions where
  /-- The calls that suspend. -/
  matcher : CallMatcher := .standard
  /-- Functions that are left as they are. -/
  exclude : NameMatcher := .nothing
  /-- Classes that the unit does not declare. -/
  loader : Resolver := .none
  /-- Are emitted functions read back and verified? -/
  verify : Bool := true

/-- Work that writes a journal. -/
abbrev Journaled := ExceptT Failure (StateM Journal)

namespace Journaled

/-- Adds a log entry. -/
def log (e : LogEntry) : Journaled Unit := modify (·.log e)

/-- Adds a message. -/
def report (message : Text) : Journaled Unit := modify (·.report message)

/-- Goes on with the value of an attempt; its error is told before it is passed on. -/
def orElse {α : Type} (x : Attempt α) (tell : Error → Journaled Unit) : Journaled α := do
  match x with
  | .ok a => return a
  | .error (.error e) =>
    tell e
    throw (.error e)
  | .error f => throw f

/-- Goes on with the value of an attempt. -/
def lift {α : Type} (x : Attempt α) : Journaled α := orElse x fun _ => return ()

/-- The outcome and the journal. -/
def outcome {α : Type} (x : Journaled α) : Attempt α × Journal := (ExceptT.run x) {}

end Journaled

namespace Transform

open Journaled (log report lift orElse)

/-- The error of a unit in which nothing is to be done. -/
def unchanged : Error := .invalidInput .transform "unit has no functions to transform"

/-- The analyzer of a unit that is being changed. The classes do not change. -/
def analyzer (u : CodeUnit) (classes : Hierarchy) : Analyzer := { unit := u, classes }

/-- The log entry about a function that became a state machine. -/
def entryFor (f : Func) (plan : Plan) (suspendable continuation : Func) : LogEntry where
  level := .debug
  message := "function transformed"
  fields :=
    [("function", .text f.name), ("points", .number plan.points.length),
     ("segments", .number plan.segments.length),
     ("live", .numbers (plan.points.map (·.live.length))),
     ("resolutions", .number plan.analysis.resolutions.length),
     ("stack", .number suspendable.maxStack.toNat),
     ("locals", .number continuation.maxLocals.toNat)]

/-- The state machine of a function with suspending calls at `sites`, and the unit with the tables
that its code needs. -/
def machine (u : CodeUnit) (classes : Hierarchy) (f : Func) (is : List Instr) (sites : List Nat) :
    Journaled (Option (CodeUnit × Func × Func)) := do
  let plan ← orElse (Plan.make (analyzer u classes) f is sites) fun e =>
    report ("Failed to analyze " ++ f.name ++ ": " ++ e.message)
  if plan.points.isEmpty then
    log { level := .debug, message := "suspend calls unreachable"
          fields := [("function", .text f.name)] }
    return none
  let (emission, u) := Emission.prepare f is plan u
  let (suspendable, continuation) ← lift (emission.functions (analyzer u classes))
  log (entryFor f plan suspendable continuation)
  return some (u, suspendable, continuation)

/-- The state machine of one function; nothing if the function is left as it is. -/
def function (o : TransformOptions) (u : CodeUnit) (classes : Hierarchy) (f : Func) :
    Journaled (Option (CodeUnit × Func × Func)) := do
  if f.isTransformed || f.isContinuation then return none
  if o.exclude f.name then
    log { level := .debug, message := "function excluded", fields := [("function", .text f.name)] }
    return none
  match u.bodyOf f with
  | .error fault =>
    report ("Failed to decode " ++ f.name ++ ": " ++ fault.message)
    throw (.error (.decode f.name (some (.ofText fault.message))))
  | .ok is =>
    let sites := u.sites o.matcher is
    if sites.isEmpty then return none
    match u.checkUsage classes f is sites with
    | .error fault =>
      report (fault.message f.name)
      return none
    | .ok _ => machine u classes f is sites

/-- A unit of which some functions are done. -/
structure Progress where
  unit : CodeUnit
  /-- The functions that became state machines. -/
  changed : List Nat := []
  continuations : List Func := []
deriving DecidableEq, Repr

/-- Does one more function. -/
def advance (o : TransformOptions) (classes : Hierarchy) (p : Progress) (index : Nat) :
    Journaled Progress := do
  let f ← lift (Attempt.ofOption p.unit.functions[index]?)
  match ← function o p.unit classes f with
  | none => return p
  | some (u, suspendable, continuation) =>
    return { unit := { u with functions := u.functions.set index suspendable }
             changed := p.changed ++ [index]
             continuations := p.continuations ++ [continuation] }

/-- Reads emitted bytes back and verifies some of the functions. -/
def verifyOutput (o : TransformOptions) (out : Bytes) (indices : List Nat) : Journaled Unit := do
  match CodeUnit.decode out with
  | .error e => throw (.error (.verify ∅ (some e)))
  | .ok u =>
    let a := analyzer u (u.hierarchy o.loader)
    indices.forM fun i => do
      let f ← lift (Attempt.ofOption u.functions[i]?)
      orElse (a.verify f) fun e =>
        log { level := .error, message := "emitted function failed verification"
              fields := [("function", .text f.name), ("error", .text e.message)] }

/-- The unit with all functions done. -/
def unit (o : TransformOptions) (u : CodeUnit) : Journaled Bytes := do
  let classes := u.hierarchy o.loader
  let count := u.functions.length
  let p ← (List.range count).foldlM (advance o classes) { unit := u }
  if p.changed.isEmpty then throw (.error unchanged)
  let out := { p.unit with functions := p.unit.functions ++ p.continuations }.encode
  if o.verify then
    verifyOutput o out (p.changed ++ List.range' count p.continuations.length)
  log { level := .info, message := "unit transformed"
        fields := [("functions", .number count), ("rewritten", .number p.continuations.length)] }
  return out

/-- The bytes of a unit with all functions done. A unit in which nothing is to be done gives the
error `unchanged`. -/
def bytes (o : TransformOptions) (data : Bytes) : Journaled Bytes := do
  match CodeUnit.decode data with
  | .error e =>
    report ("Failed to parse unit: " ++ e.message)
    throw (.error (.decode ∅ (some e)))
  | .ok u => unit o u

end Transform

/-- Does a unit hold state machines? Bytes that are no unit do not. -/
def isTransformed (data : Bytes) : Bool :=
  match CodeUnit.decode data with
  | .error _ => false
  | .ok u => u.functions.any fun f => f.isTransformed || f.isContinuation

end Resumable
