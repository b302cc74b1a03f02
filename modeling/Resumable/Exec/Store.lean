import Resumable.Exec.Value
import Resumable.Journal

/-!
# Futures and machines

A future is settled once at most, with a value or an error, and then calls back everyone who waits
for it: machines, and any code of the host. A machine is an invocation that has been suspended: it
knows the function to continue with and the future that was promised to the caller. Both live in a
store, together with the names that values were given and a trace of what happened.
-/

namespace Resumable

/-- How something ended. -/
inductive Outcome
  | value (v : Value)
  | failed (e : Error)
deriving Repr, Inhabited

namespace Outcome

/-- The value, or null after a failure. -/
def valueOrNull : Outcome → Value
  | value v => v
  | failed _ => .null

/-- A failure. One without a reason gets one. -/
def failure (reason : Option Error) : Outcome :=
  failed (reason.getD (Exception.ofText "failed with nil error").toError)

end Outcome

/-- Something that an observer can see. -/
inductive Event
  | native (key : Text) (args : List Value) (function : Text) (instr : Nat)
  | callback (tag : Text) (outcome : Outcome)
deriving Repr, Inhabited

/-- How long a caller waits for a future that is pending. In a store that nobody else changes
waiting does not help, so the caller gives up at once, if it ever does. -/
inductive Patience
  /-- Until a point in time. -/
  | deadline
  /-- Until someone says that the answer is not needed any more. -/
  | cancelled
  | forever
deriving DecidableEq, Repr

/-- Why a caller stops waiting. -/
def Patience.givesUp : Patience → Failure
  | deadline => .error (.plain .deadline)
  | cancelled => .error (.plain .cancelled)
  | forever => .endless

/-- Code of the host: what it does next, and how it goes on with what it learns. -/
inductive Host
  /-- It ends with a result. -/
  | done (r : Except Error Value)
  /-- It cannot go on. -/
  | stop (f : Failure)
  /-- It looks for the value with a name. -/
  | named (name : Text) (next : Option Value → Host)
  /-- It looks at a future. -/
  | outcome (f : Nat) (next : Option Outcome → Host)
  /-- It leaves an event in the trace. -/
  | note (e : Event) (next : Host)
  /-- It makes a future. -/
  | make (cls : Text) (outcome : Option Outcome) (next : Nat → Host)
  /-- It settles a future, and learns whether that was still pending. -/
  | settle (f : Nat) (o : Outcome) (next : Bool → Host)
  /-- It wants other code to be run when a future is settled. -/
  | register (f : Nat) (act : Outcome → Host) (next : Host)
  /-- It calls a function of the unit. -/
  | call (function : Text) (args : List Value) (patience : Patience)
      (next : Except Error Value → Host)
deriving Inhabited

/-- Who is called back when a future is settled. -/
inductive Callback
  /-- A machine goes on at a resumption index, with the state that it captured. -/
  | resume (machine : Nat) (index : Int64) (state : Value) (awaited : Nat)
  /-- The outcome becomes that of the future that a machine has promised. -/
  | link (machine : Nat)
  /-- Code of the host is run with the outcome. -/
  | host (act : Outcome → Host)
deriving Inhabited

/-- An observer, which takes note and may complete another future with the value. That future is the
one which has the name then. -/
def Callback.observe (tag : Text) (forward : Option Text) : Callback :=
  .host fun o => .note (.callback tag o) <|
    match forward with
    | none => .done (.ok .null)
    | some name => .named name fun
      | some (.future f) => .settle f (.value o.valueOrNull) fun _ => .done (.ok .null)
      | _ => .stop .outOfRange

/-- A result that may come later. -/
structure Future where
  cls : Text
  /-- Nothing while the future is pending. -/
  outcome : Option Outcome := none
  /-- Who waits, in the order of registration. -/
  callbacks : List Callback := []
deriving Inhabited

/-- An invocation that has been suspended. -/
structure Machine where
  /-- The function that continues it. -/
  continuation : Text
  /-- The future that was promised to the caller. -/
  result : Nat
  /-- How often it was resumed. -/
  resumes : Nat := 0
deriving Repr, Inhabited

/-- An event, with the futures as they were when it happened. -/
structure Traced where
  event : Event
  futures : List Future
deriving Inhabited

/-- All that outlives a call. -/
structure Store where
  futures : List Future := []
  machines : List Machine := []
  /-- The number of objects made so far. -/
  objects : Nat := 0
  /-- Values by name. -/
  names : List (Text × Value) := []
  /-- The number of futures that were named in the order of their making. -/
  spawned : Nat := 0
  trace : List Traced := []
  logs : List LogEntry := []
deriving Inhabited

namespace Store

/-- Adds an event to the trace. -/
def note (s : Store) (e : Event) : Store :=
  { s with trace := s.trace ++ [{ event := e, futures := s.futures }] }

/-- Adds a log entry. -/
def log (s : Store) (e : LogEntry) : Store := { s with logs := s.logs ++ [e] }

/-- A new future. -/
def newFuture (s : Store) (f : Future) : Nat × Store :=
  (s.futures.length, { s with futures := s.futures ++ [f] })

/-- A new machine with a new future of the given class for its result. -/
def newMachine (s : Store) (continuation cls : Text) : Nat × Store :=
  let (result, s) := s.newFuture { cls }
  (s.machines.length, { s with machines := s.machines ++ [{ continuation, result }] })

/-- A new object. -/
def newObject (s : Store) (cls : Text) : Value × Store :=
  (.object s.objects cls, { s with objects := s.objects + 1 })

/-- Gives a name to a value. The value that had the name before loses it. -/
def bind (s : Store) (name : Text) (v : Value) : Store :=
  { s with names := (name, v) :: s.names.filter fun (n, _) => n ≠ name }

/-- The value with a name. -/
def named? (s : Store) (name : Text) : Option Value := s.names.lookup name

/-- A new pending future with the next of the names `n0`, `n1`, … -/
def spawn (s : Store) (cls : Text) : Value × Store :=
  let (id, s) := s.newFuture { cls }
  (.future id, { s.bind ("n" ++ Text.ofNat s.spawned) (.future id) with spawned := s.spawned + 1 })

/-- The outcome of a future, if it is settled. -/
def outcome? (s : Store) (f : Nat) : Option Outcome := (s.futures[f]?).bind (·.outcome)

/-- Is a future settled? -/
def isDone (s : Store) (f : Nat) : Bool := (s.outcome? f).isSome

/-- Registers a callback on a future. -/
def register (s : Store) (f : Nat) (c : Callback) : Store :=
  { s with futures := s.futures.modify f fun x => { x with callbacks := x.callbacks ++ [c] } }

/-- Settles a future. The callbacks are handed out: they are to be run now. -/
def settle (s : Store) (f : Nat) (o : Outcome) : List Callback × Store :=
  (((s.futures[f]?).map (·.callbacks)).getD [],
   { s with futures := s.futures.modify f fun x => { x with outcome := some o, callbacks := [] } })

/-- Counts one more resumption of a machine. -/
def countResume (s : Store) (m : Nat) : Store :=
  { s with machines := s.machines.modify m fun x => { x with resumes := x.resumes + 1 } }

/-! ### Classes and texts of values -/

/-- The class of a reference; nothing for null and integers. -/
def classOf (s : Store) : Value → Text
  | .str _ => ClassName.string
  | .future f => ((s.futures[f]?).map (·.cls)).getD ∅
  | .exception e => e.cls
  | .record _ _ | .noRecord => ClassName.state
  | .machine _ => ClassName.machine
  | .object _ cls => cls
  | .null | .int _ | .outer _ => ∅

/-- What stands for a member of a record that has no text. -/
def unprintable : Text :=
  "%!v(PANIC=String method: runtime error: invalid memory address or nil pointer dereference)"

/-- A value as a member of a record, given the texts of futures. -/
def fieldText (futureText : Nat → Attempt Text) : Value → Attempt Text
  | .null | .noRecord => .ok "<nil>"
  | .int n | .outer n => .ok (Text.ofInt n.toInt)
  | .str t => .ok t
  | .exception e => .ok e.text
  | .future f =>
    match futureText f with
    | .error .outOfRange => .ok unprintable
    | text => text
  | .record layout _ => .ok ("record#" ++ Text.ofNat layout.toNat)
  | .machine m => .ok ("machine#" ++ Text.ofNat m)
  | .object id cls => .ok (cls ++ "@" ++ Text.ofNat id)

/-- A value as text, given the texts of futures. There is none for a record that is not there. -/
def valueText (s : Store) (futureText : Nat → Attempt Text) : Value → Attempt Text
  | .null => .ok "null"
  | .str t => .ok t.quoted
  | .record layout fields => do
    let texts ← fields.mapM (fieldText futureText)
    return "record#" ++ Text.ofNat layout.toNat ++ "[" ++ Text.join " " texts ++ "]"
  | .noRecord => .error .outOfRange
  | .machine m => .ok ("machine(" ++ ((s.machines[m]?).map (·.continuation)).getD ∅ ++ ")")
  | .future f => futureText f
  | v => fieldText futureText v

/-- A future as text: its class and its state. The value of a future may be a future in turn,
`depth` times at most. -/
def futureText (s : Store) : (depth : Nat) → Nat → Attempt Text
  | 0, _ => .error .endless
  | depth + 1, f =>
    match s.futures[f]? with
    | none => .error .outOfRange
    | some x =>
      match x.outcome with
      | none => .ok (x.cls ++ "(pending)")
      | some (.failed e) => .ok (x.cls ++ "(failed: " ++ e.message ++ ")")
      | some (.value v) => do
        return x.cls ++ "(" ++ (← s.valueText (s.futureText depth) v) ++ ")"

/-- A value as text. Futures that hold each other in a circle have none. -/
def format (s : Store) (v : Value) : Attempt Text :=
  s.valueText (s.futureText (s.futures.length + 1)) v

end Store

end Resumable
