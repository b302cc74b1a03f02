import Resumable.Exec.Store

/-!
# Natives

A native is a call whose owner is not the unit. It sees its arguments and where it was called from,
may change the store, and replies with a value, with a failure, or with a request to the machine
that runs it: to go on with any code of the host, or to suspend. Every machine has natives for
futures, suspension, errors and strings.
-/

namespace Resumable

/-- A call of a native. -/
structure Invocation where
  args : List Value
  /-- The calling function and its instruction. -/
  function : Text
  instr : Nat
  patience : Patience
  /-- The functions of the unit. -/
  lookup : Text → Option Func
  /-- Are debug entries logged? -/
  debug : Bool

/-- What a native replies. -/
inductive Reply
  | value (v : Value)
  /-- Run code of the host, and reply with its result. -/
  | act (code : Host)
  /-- Register a callback on a future, run it at once if the future is settled, and then reply. -/
  | register (future : Nat) (callback : Callback) (reply : Value)
deriving Inhabited

/-- Work of a native. What it did to the store before it failed stays. -/
abbrev NativeM := ExceptT Failure (StateM Store)

/-- A native. -/
abbrev Native := Invocation → NativeM Reply

namespace Native

/-- Fails with an exception. -/
def raise {α : Type} (e : Exception) : NativeM α := throw (.error e.toError)

/-- Argument `i`. A symbol may declare fewer parameters than its native reads. -/
def arg (c : Invocation) (i : Nat) : NativeM Value :=
  match c.args[i]? with
  | some v => return v
  | none => throw .outOfRange

/-- Argument `i`, which has to be a future. -/
def futureArg (c : Invocation) (i : Nat) : NativeM Nat := do
  match ← arg c i with
  | .future f => return f
  | .null => raise (.ofText "null future")
  | v =>
    throw (.error
      (.typeMismatch .runtime ∅ (-1) ClassName.future ((← get).classOf v)))

/-- Argument `i` as a text; anything else counts as empty. -/
def textArg (c : Invocation) (i : Nat) : NativeM Text := do
  match ← arg c i with
  | .str t => return t
  | _ => return ∅

/-- Makes a future. -/
def newFuture (f : Future) : NativeM Reply := do
  let id ← modifyGet fun s => s.newFuture f
  return .value (.future id)

/-! ### Futures -/

def isDone : Native := fun c => do
  let f ← futureArg c 0
  return .value (.ofBool ((← get).isDone f))

/-- Gives the value of a future or throws its failure. -/
def join : Native := fun c => do
  let f ← futureArg c 0
  match (← get).outcome? f with
  | some (.value v) => return .value v
  | some (.failed e) => raise e.asException
  | none => throw c.patience.givesUp

def completed : Native := fun c => do
  newFuture { cls := ClassName.future, outcome := some (.value (← arg c 0)) }

def failed : Native := fun c => do
  match ← arg c 0 with
  | .exception e => newFuture { cls := ClassName.future, outcome := some (.failed e.toError) }
  | _ => raise (.ofText "Future.failed needs an Error")

def pending : Native := fun _ => newFuture { cls := ClassName.future }

/-! ### Suspension -/

/-- The warning about an await in a function that cannot suspend. -/
def fallbackWarning : Text :=
  "Warning: Illegal call to await, the method invoking await must return a Future"

/-- What the warning says about the call. -/
def fallbackFields (c : Invocation) : List (Text × LogValue) :=
  if c.debug then
    [("function", .text c.function), ("instr", .number c.instr), ("stack", .present)]
  else [("function", .text c.function), ("instr", .number c.instr)]

/-- A suspending call that was left as it is: warns, and then joins. -/
def awaitFallback : Native := fun c => do
  modify (·.log { level := .warn, message := fallbackWarning, fields := fallbackFields c })
  join c

/-- The class of the future that a machine promises. -/
def promisedClass (f : Func) : Text :=
  match f.result with
  | .ref cls => cls
  | _ => ClassName.future

/-- The machine that suspends: the one in the first argument, or a new one for a continuation. -/
def suspendingMachine (c : Invocation) (m : Value) (continuation : Text) : NativeM Nat := do
  match m with
  | .machine m => return m
  | _ =>
    match c.lookup continuation with
    | none => throw (.error (.notFound .runtime "continuation" continuation))
    | some f => modifyGet fun s => s.newMachine continuation (promisedClass f)

/-- Suspends an invocation: it is resumed when the awaited future is settled. Replies with the
promised future. -/
def suspend : Native := fun c => do
  let m ← arg c 0
  let awaited ← futureArg c 1
  let state ← arg c 2
  let index ← arg c 3
  let continuation ← textArg c 4
  let state := match state with
    | .record l fs => Value.record l fs
    | _ => .noRecord
  let index : Int64 := match index with
    | .int n => n
    | _ => 0
  let m ← suspendingMachine c m continuation
  match (← get).machines[m]? with
  | none => throw .outOfRange
  | some x => return .register awaited (.resume m index state awaited) (.future x.result)

/-! ### Errors and strings -/

def newError : Native := fun c => return .value (.exception (.ofText (← textArg c 0)))

def errorMessage : Native := fun c => do
  match ← arg c 0 with
  | .exception e => return .value (.str e.message)
  | _ => raise (.ofText "message of non-error")

def concat : Native := fun c => do
  let a ← textArg c 0
  let b ← textArg c 1
  return .value (.str (a ++ b))

def valueOf : Native := fun c => do
  match ← arg c 0 with
  | .int n => return .value (.str (Text.ofInt n.toInt))
  | _ => return .value (.str "0")

/-- The number of bytes. -/
def length : Native := fun c => do
  return .value (.int (Int64.ofNat (← textArg c 0).size))

/-- Are two strings the same? Two values that are no strings count as the same. -/
def equals : Native := fun c => do
  let a ← arg c 0
  let b ← arg c 1
  return .value (.ofBool (match a, b with
    | .str a, .str b => a = b
    | .str _, _ => false
    | _, .str _ => false
    | _, _ => true))

def identity : Native := fun c => return .value (← arg c 0)

/-- The natives of every machine, by their keys. -/
def builtin? (key : Text) : Option Native :=
  [(("Future.isDone" : Text), isDone), ("Future.join", join), ("Future.completed", completed),
   ("Future.failed", failed), ("Future.new", pending), ("async/Await.await", awaitFallback),
   ("async/Machine.suspend", suspend), ("Error.new", newError), ("Error.message", errorMessage),
   ("String.concat", concat), ("String.valueOf", valueOf), ("String.length", length),
   ("String.equals", equals), ("Object.identity", identity)].lookup key

end Native

end Resumable
