import Resumable.Exec.Value
import Resumable.Hierarchy
import Resumable.Instr.Basic

/-!
# Activations

An activation is a function while it runs: its locals, its operand stack and the next instruction.
One step runs one instruction. A call is not run by the step: it is handed out, and the activation
goes on when it receives the answer.
-/

namespace Resumable

/-- A function with its instructions. -/
structure Body where
  func : Func
  code : List Instr
deriving DecidableEq, Repr

/-- A function while it runs. -/
structure Activation where
  body : Body
  locals : List Value
  /-- The top comes first. -/
  stack : List Value
  pc : Nat
deriving Repr

/-- What an activation knows about the world. -/
structure Surroundings where
  unit : CodeUnit
  classes : Hierarchy
  classOf : Value → Text
  format : Value → Attempt Text

/-- What comes after an instruction. -/
inductive Turn
  | next
  | jump (pc : UInt32)
  | call (symbol : UInt32) (args : List Value)
  | leave (result : Value)
  | raise (e : Exception)
deriving Repr

/-- What an activation does in one step. -/
inductive Step
  | next (a : Activation)
  /-- The activation waits for the answer of a call. -/
  | call (symbol : UInt32) (args : List Value) (a : Activation)
  | done (result : Value)
  /-- An exception that no handler takes. -/
  | raised (e : Exception)
  | stopped (f : Failure)
deriving Repr

namespace Activation

/-- The start of a call. Locals without an argument are null. -/
def start (body : Body) (args : List Value) : Activation where
  body := body
  locals :=
    let count := body.func.maxLocals.toNat
    (args ++ List.replicate (count - args.length) Value.null).take count
  stack := []
  pc := 0

/-! ### Operands -/

/-- Work on the stack and the locals of an activation. -/
abbrev Work := StateT Activation Attempt

/-- A report about the current instruction. -/
def fault (a : Activation) (problem : Problem) (detail : Text) : Failure :=
  .error (.ofReport
    { phase := .runtime, problem, function := a.body.func.name, instr := a.pc, detail })

/-- Stops with a report. -/
def fail {α : Type} (problem : Problem) (detail : Text) : Work α := do
  throw ((← get).fault problem detail)

/-- The member of a table that an operand points to. -/
def entry {α : Type} (table : List α) (i : UInt32) : Work α :=
  StateT.lift (Attempt.ofOption (item? table i))

def push (v : Value) : Work Unit := modify fun a => { a with stack := v :: a.stack }

def pop : Work Value := do
  match (← get).stack with
  | [] => fail .stackUnderflow "operand stack underflow"
  | v :: rest =>
    modify fun a => { a with stack := rest }
    return v

/-- Takes `n` values, which are given from the bottom up. -/
def popMany (n : Nat) : Work (List Value) := do
  let stack := (← get).stack
  if stack.length < n then fail .stackUnderflow "operand stack underflow"
  modify fun a => { a with stack := stack.drop n }
  return (stack.take n).reverse

def popInt (w : Surroundings) : Work Int64 := do
  match ← pop with
  | .int n => return n
  | v =>
    let text ← StateT.lift (w.format v)
    fail .typeMismatch ("expected I, got " ++ text)

/-! ### Instructions -/

/-- The result of an operation on two integers. -/
def arith (op : Arith) (a b : Int64) : Int64 :=
  match op with
  | .add => a + b
  | .sub => a - b
  | .mul => a * b
  | .cmp => if a < b then -1 else if b < a then 1 else 0

/-- A jump if a condition holds. -/
def jumpIf (condition : Bool) (target : UInt32) : Turn := if condition then .jump target else .next

/-- The target of a switch for an integer. -/
def switchTarget (low : Int32) (targets : List UInt32) (otherwise : UInt32) (n : Int64) : UInt32 :=
  let k := n - low.toInt64
  if k < 0 then otherwise else (targets[k.toNatClampNeg]?).getD otherwise

/-- Is a value an instance of a class? -/
def isInstance (w : Surroundings) (v : Value) (cls : Text) : Bool :=
  !v.isNull && w.classes.isSubclass (w.classOf v) cls

/-- Runs an instruction. -/
def apply (w : Surroundings) : Instr → Work Turn
  | .nop => return .next
  | .iconst n => do
    push (.int n)
    return .next
  | .sconst i => do
    push (.str (← entry w.unit.strings i))
    return .next
  | .null => do
    push .null
    return .next
  | .load n => do
    push (← entry (← get).locals n)
    return .next
  | .store n => do
    let v ← pop
    modify fun a => { a with locals := a.locals.set n.toNat v }
    return .next
  | .pop => do
    let _ ← pop
    return .next
  | .dup => do
    let v ← pop
    push v
    push v
    return .next
  | .swap => do
    let b ← pop
    let a ← pop
    push b
    push a
    return .next
  | .arith op => do
    let b ← popInt w
    let a ← popInt w
    push (.int (arith op a b))
    return .next
  | .goto t => return .jump t
  | .branch .zero t => return jumpIf ((← popInt w) == 0) t
  | .branch .nonzero t => return jumpIf ((← popInt w) != 0) t
  | .branch .less t => do
    let b ← popInt w
    let a ← popInt w
    return jumpIf (a < b) t
  | .branch .null t => return jumpIf (← pop).isNull t
  | .branch .nonnull t => return jumpIf (!(← pop).isNull) t
  | .switch low targets otherwise =>
    return .jump (switchTarget low targets otherwise (← popInt w))
  | .invoke i => do
    let s ← entry w.unit.symbols i
    return .call i (← popMany s.params.length)
  | .checkcast i => do
    let cls ← entry w.unit.strings i
    let v ← pop
    if v.isNull || isInstance w v cls then
      push v
      return .next
    else return .raise (.ofText ("cannot cast " ++ w.classOf v ++ " to " ++ cls))
  | .instanceof i => do
    let cls ← entry w.unit.strings i
    let v ← pop
    push (.ofBool (isInstance w v cls))
    return .next
  | .raise => do
    match ← pop with
    | .exception e => return .raise e
    | v =>
      let text ← StateT.lift (w.format v)
      return .raise (.ofText ("throw of non-error value " ++ text))
  | .ret => return .leave .null
  | .retval => return .leave (← pop)
  | .newrec i => do
    let l ← entry w.unit.records i
    push (.record i (← popMany l.fields.length))
    return .next
  | .recget i f => do
    match ← pop with
    | .record layout fields =>
      if layout = i then
        push (← entry fields f)
        return .next
      else fail .typeMismatch "recget on a record of another layout"
    | .noRecord => throw .outOfRange
    | _ => fail .typeMismatch "recget on a record of another layout"

/-! ### Steps -/

/-- Does a handler take an exception that is raised at `pc`? -/
def takes (w : Surroundings) (pc : Nat) (e : Exception) (h : Handler) : Bool :=
  h.covers pc && (h.cls.isEmpty || w.classes.isSubclass e.cls h.cls)

/-- Raises an exception at the current instruction: the first handler that takes it goes on, with
the exception alone on the stack. -/
def raise (w : Surroundings) (a : Activation) (e : Exception) : Step :=
  match a.body.func.handlers.find? (takes w a.pc e) with
  | some h => .next { a with stack := [.exception e], pc := h.target.toNat }
  | none => .raised e

/-- Goes where a turn leads. -/
def turn (w : Surroundings) (a : Activation) : Turn → Step
  | .next => .next { a with pc := a.pc + 1 }
  | .jump t => .next { a with pc := t.toNat }
  | .call symbol args => .call symbol args a
  | .leave v => .done v
  | .raise e => a.raise w e

/-- Runs the next instruction. -/
def step (w : Surroundings) (a : Activation) : Step :=
  match a.body.code[a.pc]? with
  | none => .stopped (a.fault .outOfBounds "execution left the function body")
  | some i =>
    match (apply w i).run a with
    | .error f => .stopped f
    | .ok (t, a) => a.turn w t

/-- The type of the answer that the current instruction waits for. -/
def awaitedType (u : CodeUnit) (a : Activation) : Ty :=
  match a.body.code[a.pc]? with
  | some (.invoke i) => (item? u.symbols i).elim .void Symbol.result
  | _ => .void

/-- Goes on with the answer of the call that the current instruction makes. -/
def receive (w : Surroundings) (a : Activation) : Except Error Value → Step
  | .ok v =>
    .next { a with
      stack := if a.awaitedType w.unit = .void then a.stack else v.received :: a.stack
      pc := a.pc + 1 }
  | .error e =>
    match e.raised? with
    | some x => a.raise w x
    | none => .stopped (.error e)

end Activation

end Resumable
