import Resumable.Text.Quoted

/-!
# Errors

An error is a chain of incidents: what went wrong at one level of the work, and what led to it one
level below. Most incidents are reports, which name the phase of the work, the kind of the problem
and the place. `Error.message` is the only place where a chain becomes text.
-/

namespace Resumable

/-- A stage of the work. The vocabulary is open; the stages of this library are named below. -/
structure Phase where
  name : Text
deriving DecidableEq, Repr, Inhabited

namespace Phase

/-- From the bytes of a unit to instructions. -/
def decode : Phase := ⟨"decode"⟩
/-- From instructions to the bytes of a unit. -/
def encode : Phase := ⟨"encode"⟩
/-- Flow graph, frames and liveness. -/
def analyze : Phase := ⟨"analyze"⟩
/-- Construction of state machines. -/
def transform : Phase := ⟨"transform"⟩
/-- The second look at emitted code. -/
def verify : Phase := ⟨"verify"⟩
/-- Execution. -/
def runtime : Phase := ⟨"runtime"⟩
/-- Loading a unit for execution. -/
def load : Phase := ⟨"load"⟩
/-- Reading assembly text. -/
def parse : Phase := ⟨"parse"⟩

end Phase

/-- A sort of problem. The vocabulary is open as well. -/
structure Problem where
  name : Text
deriving DecidableEq, Repr, Inhabited

namespace Problem

def typeMismatch : Problem := ⟨"type_mismatch"⟩
def outOfBounds : Problem := ⟨"out_of_bounds"⟩
def invalidData : Problem := ⟨"invalid_data"⟩
def unsupported : Problem := ⟨"unsupported"⟩
def illegalUsage : Problem := ⟨"illegal_usage"⟩
def internal : Problem := ⟨"internal"⟩
def notFound : Problem := ⟨"not_found"⟩
def notInitialized : Problem := ⟨"not_initialized"⟩
def invalidInput : Problem := ⟨"invalid_input"⟩
def stackUnderflow : Problem := ⟨"stack_underflow"⟩

end Problem

/-- A report: phase and problem, and as much of the place and the circumstances as is known. -/
structure Report where
  phase : Phase
  problem : Problem
  function : Text := ∅
  /-- The instruction of `function`; negative if the report is about all of it. -/
  instr : Int := -1
  path : List Text := []
  type : Text := ∅
  detail : Text := ∅
  /-- The offending number. -/
  value : Option Int := none
deriving DecidableEq, Repr, Inhabited

/-- A file of a batch that failed, with the text of its error. -/
structure FailedFile where
  path : Text
  reason : Text
deriving DecidableEq, Repr

/-- What went wrong at one level of the work. -/
inductive Incident
  | report (r : Report)
  /-- An exception of a running program that nothing caught. -/
  | exception (cls : Text) (message : Text)
  /-- A text that says all there is, also about its cause. -/
  | note (text : Text)
  /-- The reader of units stopped at a position of a section. -/
  | located (part : Text) (position : Nat)
  | invalidMagic
  | invalidVersion
  /-- The time that a caller was ready to wait is over. -/
  | deadline
  /-- The caller does not wait any more. -/
  | cancelled
  /-- Some files of a batch failed. -/
  | batch (files : List FailedFile)
  /-- The command line stops with an exit code. -/
  | exit (message : Text)
deriving DecidableEq, Repr, Inhabited

/-- An incident, or an incident with the error that led to it. -/
inductive Error
  | plain (what : Incident)
  | because (what : Incident) (cause : Error)
deriving DecidableEq, Repr, Inhabited

/-! ### Messages -/

/-- The line of a report, without its cause. -/
def Report.text (r : Report) : Text :=
  "[" ++ r.phase.name ++ "] " ++ r.problem.name ++ place ++ way ++ circumstances
where
  place : Text :=
    if r.function.isEmpty then ∅
    else " in " ++ r.function ++ (if 0 ≤ r.instr then "@" ++ Text.ofInt r.instr else ∅)
  way : Text := if r.path.isEmpty then ∅ else " at " ++ Text.join "." r.path
  circumstances : Text :=
    (if r.type.isEmpty then ∅ else ": type " ++ r.type) ++
    (if r.detail.isEmpty then ∅ else (if r.type.isEmpty then ": " else " - ") ++ r.detail)

/-- The text of a batch failure: a count, an empty line, and a line for each file. -/
def batchText (files : List FailedFile) : Text :=
  if files.isEmpty then "[transform] batch: no failures recorded"
  else
    Text.ofNat files.length ++ " file(s) failed:\n" ++
      Text.concat (files.map fun f => "\n  " ++ f.path ++ ": " ++ f.reason)

/-- The text of an exception: its class, and its message if it has one. -/
def exceptionText (cls message : Text) : Text :=
  if message.isEmpty then cls else cls ++ ": " ++ message

/-- The text of an incident whose cause, if there is one, has the given text. -/
def Incident.text (what : Incident) (cause : Option Text) : Text :=
  match what with
  | .report r =>
    match cause with
    | none => r.text
    | some c => r.text ++ " (caused by: " ++ c ++ ")"
  | .exception cls message => exceptionText cls message
  | .note t => t
  | .located part position =>
    "unit: " ++ (if part.isEmpty then ∅ else part ++ " ") ++ "at position " ++
      Text.ofNat position ++ ": " ++ cause.getD ∅
  | .invalidMagic => "invalid unit magic"
  | .invalidVersion => "invalid unit version"
  | .deadline => "context deadline exceeded"
  | .cancelled => "context canceled"
  | .batch files => batchText files
  | .exit message => message

namespace Error

/-- The text of an error. -/
def message : Error → Text
  | .plain what => what.text none
  | .because what cause => what.text (some cause.message)

/-- The incident at the top. -/
def what : Error → Incident
  | .plain what => what
  | .because what _ => what

/-- The error right below the top. -/
def cause? : Error → Option Error
  | .plain _ => none
  | .because _ cause => some cause

/-- All incidents from the top down. -/
def chain : Error → List Incident
  | .plain what => [what]
  | .because what cause => what :: cause.chain

/-- An incident with the error below it, if there is one. -/
def of (what : Incident) : Option Error → Error
  | none => .plain what
  | some cause => .because what cause

/-- A text with no more structure. -/
def ofText (t : Text) : Error := .plain (.note t)

/-- A report. -/
def ofReport (r : Report) : Error := .plain (.report r)

/-- A report, with the error that led to it if there is one. -/
def reportOn (r : Report) (cause : Option Error) : Error := of (.report r) cause

/-- Does the chain hold a report with this problem, in this phase if one is named? -/
def reports (e : Error) (phase : Phase) (problem : Problem) : Bool :=
  e.chain.any fun
    | .report r => r.problem = problem && (phase.name.isEmpty || r.phase = phase)
    | _ => false

/-- Does the chain hold a batch failure? -/
def isBatch (e : Error) : Bool :=
  e.chain.any fun
    | .batch _ => true
    | _ => false

/-! ### Common reports -/

/-- Malformed input, in one function or in the unit. -/
def decode (function : Text) (cause : Option Error) : Error :=
  reportOn { phase := .decode, problem := .invalidData, function } cause

/-- A suspending call where none may stand. -/
def illegalUsage (function : Text) (instr : Int) (detail : Text) : Error :=
  ofReport { phase := .transform, problem := .illegalUsage, function, instr, detail }

/-- A value of one type where another is wanted. -/
def typeMismatch (phase : Phase) (function : Text) (instr : Int) (want got : Text) : Error :=
  ofReport { phase, problem := .typeMismatch, function, instr, type := got,
             detail := "expected " ++ want }

/-- Emitted code that did not pass its verification. -/
def verify (function : Text) (cause : Option Error) : Error :=
  reportOn { phase := .verify, problem := .internal, function,
             detail := "emitted function failed verification" } cause

/-- A broken invariant. -/
def internal (phase : Phase) (function detail : Text) : Error :=
  ofReport { phase, problem := .internal, function, detail }

/-- Something that is not provided. -/
def unsupported (phase : Phase) (detail : Text) : Error :=
  ofReport { phase, problem := .unsupported, detail }

/-- An index past the end of what it indexes. -/
def outOfBounds (phase : Phase) (path : List Text) (index length : Int) : Error :=
  ofReport { phase, problem := .outOfBounds, path, value := some index,
             detail := "index " ++ Text.ofInt index ++ " out of bounds (length " ++
               Text.ofInt length ++ ")" }

/-- Data that breaks a rule. -/
def invalidData (phase : Phase) (path : List Text) (detail : Text) : Error :=
  ofReport { phase, problem := .invalidData, path, detail }

/-- Another error, with a phase and a problem of one's own. -/
def wrap (phase : Phase) (problem : Problem) (cause : Option Error) (detail : Text) : Error :=
  reportOn { phase, problem, detail } cause

/-- A component that is used too early. -/
def notInitialized (phase : Phase) (component : Text) : Error :=
  ofReport { phase, problem := .notInitialized, detail := component ++ " not initialized" }

/-- A name that nothing has. -/
def notFound (phase : Phase) (what name : Text) : Error :=
  ofReport { phase, problem := .notFound, detail := what ++ " " ++ name.quoted ++ " not found" }

/-- Input that cannot be accepted. -/
def invalidInput (phase : Phase) (detail : Text) : Error :=
  ofReport { phase, problem := .invalidInput, detail }

/-- A unit that cannot be loaded. -/
def load (detail : Text) (cause : Option Error) : Error :=
  reportOn { phase := .load, problem := .invalidData, detail } cause

/-- A text that cannot be read. -/
def parseFailed (subject : Text) (cause : Option Error) : Error :=
  reportOn { phase := .parse, problem := .invalidData, detail := "parse " ++ subject } cause

end Error

/-- Why an operation gave no value. -/
inductive Failure
  | error (e : Error)
  /-- An index pointed past its table. Data that was checked never gets here; data that was not
  checked may, and then no error describes it. -/
  | outOfRange
  /-- A search did not come to rest within its bound. -/
  | endless
deriving DecidableEq, Repr

/-- A value, or the reason why there is none. -/
abbrev Attempt := Except Failure

namespace Attempt

/-- Gives up with an error. -/
def fail {α : Type} (e : Error) : Attempt α := .error (.error e)

/-- Changes the error, if there is one. -/
def mapError {α : Type} (f : Error → Error) : Attempt α → Attempt α
  | .error (.error e) => .error (.error (f e))
  | other => other

/-- An optional value that is only missing if an index points past its table. -/
def ofOption {α : Type} : Option α → Attempt α
  | some a => .ok a
  | none => .error .outOfRange

/-- A result whose error is only a text. -/
def ofExcept {ε α : Type} (message : ε → Text) : Except ε α → Attempt α
  | .ok a => .ok a
  | .error e => fail (.ofText (message e))

end Attempt

end Resumable
