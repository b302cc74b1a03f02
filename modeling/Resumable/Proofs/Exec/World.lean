import Resumable.Exec.Program
import Resumable.Proofs.Simulation
import Resumable.Suspension.Site

/-!
# Invocations in a world

An invocation runs the instructions of a function and leaves the rest to the world around it: the
world answers its calls, and settles the futures that it waits for. Nothing is known about the world
except that its answers depend on its state and that a future which is waited for is settled at some
time. A suspending call that was left as it is waits like a join. An invocation that has been
suspended returns a promise, and its continuation is started when the awaited future is settled.

What can be seen of an invocation are the calls that the world answers, with their arguments, and how
it ends. So two programs do the same for a caller if their invocations are `Moves.Same` in every
world.
-/

namespace Resumable

/-! ## Runtime calls -/

/-- What becomes of a call. -/
inductive Service
  /-- Asks whether a future is settled. -/
  | isDone
  /-- Waits for a future and takes its outcome. -/
  | join
  /-- Hands over what is needed for a resumption. -/
  | suspend
  /-- Is answered by the world. -/
  | other
deriving DecidableEq, Repr

/-- What becomes of a call of a symbol, if the natives for futures and suspension are the built-in
ones. -/
def Symbol.service (s : Symbol) : Service :=
  if s.owner.isEmpty then .other
  else if CallMatcher.standard s.owner s.name then .join
  else if s.key = "Future.isDone" then .isDone
  else if s.key = "Future.join" then .join
  else if s.key = "async/Machine.suspend" then .suspend
  else .other

/-! ## The world -/

/-- What an invocation meets while it runs. A state is all that answers depend on. -/
structure World (σ : Type) where
  classOf : σ → Value → Text
  format : σ → Value → Attempt Text
  /-- The answer to a call, and the state after it. -/
  answer : σ → Symbol → List Value → Attempt Value × σ
  /-- The outcome of a future, if it is settled. -/
  outcome? : σ → Nat → Option Outcome
  /-- The state in which a pending future has been settled. -/
  wait : σ → Nat → σ
  settled : ∀ {s f}, outcome? s f = none → (outcome? (wait s f) f).isSome
  /-- The machine of the invocation, should it be suspended, … -/
  machine : Nat
  /-- … and the future that is promised then. -/
  promise : Nat

namespace World

variable {σ : Type} (w : World σ)

/-- The state in which a future is settled. -/
def await (s : σ) (f : Nat) : σ := if (w.outcome? s f).isSome then s else w.wait s f

theorem isSome_await (s : σ) (f : Nat) : (w.outcome? (w.await s f) f).isSome := by
  unfold await
  split
  next h => exact h
  next h => exact w.settled (Option.not_isSome_iff_eq_none.mp h)

theorem await_of_isSome {s : σ} {f : Nat} (h : (w.outcome? s f).isSome) : w.await s f = s :=
  if_pos h

theorem await_await (s : σ) (f : Nat) : w.await (w.await s f) f = w.await s f :=
  w.await_of_isSome (w.isSome_await s f)

/-- The future that the first argument is. -/
def future (s : σ) : List Value → Attempt Nat
  | .future f :: _ => .ok f
  | .null :: _ => .error (.error (Exception.ofText "null future").toError)
  | v :: _ => .error (.error (.typeMismatch .runtime ∅ (-1) ClassName.future (w.classOf s v)))
  | [] => .error .outOfRange

/-- The answer of a settled future. -/
def outcome (s : σ) (f : Nat) : Attempt Value :=
  match w.outcome? s f with
  | some (.value v) => .ok v
  | some (.failed e) => .error (.error e.asException.toError)
  | none => .error .endless

/-- Is a future settled? -/
def isDone (s : σ) (args : List Value) : Attempt Value := do
  return .ofBool (w.outcome? s (← w.future s args)).isSome

/-- Waits for a future and takes its outcome. -/
def join (s : σ) (args : List Value) : Attempt Value × σ :=
  match w.future s args with
  | .error x => (.error x, s)
  | .ok f => (w.outcome (w.await s f) f, w.await s f)

/-- A value passes for the type that a call declares, or there is nothing to ask for. -/
def Passes (p : Program) (s : σ) (t : Ty) (v : Value) : Prop :=
  t = .void ∨ t = .ref ClassName.object ∨ v.isNull ∨
    ∃ cls, t = .ref cls ∧ p.classes.isSubclass (w.classOf s v) cls

/-- What an activation knows about the world. -/
def surroundings (p : Program) (s : σ) : Surroundings :=
  { unit := p.unit, classes := p.classes, classOf := w.classOf s, format := w.format s }

end World

/-! ## Invocations -/

/-- What is handed over for a resumption. -/
structure Handover where
  continuation : Text
  machine : Nat
  index : Int64
  state : Value
  awaited : Nat

/-- The arguments of a continuation. -/
def Handover.args (h : Handover) : List Value :=
  [.machine h.machine, .int h.index, h.state, .future h.awaited]

/-- Where an invocation is. -/
inductive Stage
  | run (a : Activation)
  /-- The answer of the call that the activation waits for is there. -/
  | answered (a : Activation) (r : Attempt Value)

/-- An invocation in a state of the world. -/
structure Invoked (σ : Type) where
  stage : Stage
  /-- What was handed over, if the invocation is being suspended. -/
  handover : Option Handover := none
  state : σ

/-- How an invocation ends. -/
inductive Finish
  | returned (v : Value)
  | raised (e : Exception)
  /-- The answer of a call ends it. -/
  | failed (f : Failure)
  /-- It is at fault itself. Where that is does not matter. -/
  | faulted

namespace World

variable {σ : Type} (w : World σ)

/-- What a suspending invocation hands over. It has a machine already if it was resumed before. -/
def handover : List Value → Option Handover
  | [m, .future f, .record l fs, .int n, .str c] =>
    some { continuation := c, index := n, state := .record l fs, awaited := f
           machine := match m with
             | .machine k => k
             | _ => w.machine }
  | _ => none

/-- What a call comes to, and whether it can be seen. -/
def call (x : Invoked σ) (a : Activation) (s : Symbol) (args : List Value) :
    Move (Invoked σ) (Symbol × List Value) Finish :=
  match s.service with
  | .isDone => .going { x with stage := .answered a (w.isDone x.state args) } none
  | .join =>
    let (r, state) := w.join x.state args
    .going { x with stage := .answered a r, state } none
  | .suspend =>
    match w.handover args with
    | some h => .going { x with stage := .answered a (.ok (.future w.promise)), handover := h } none
    | none => .going { x with stage := .answered a (.error .outOfRange) } none
  | .other =>
    let (r, state) := w.answer x.state s args
    .going { x with stage := .answered a r, state } (some (s, args))

/-- What a return comes to: an end, or a resumption when the awaited future is settled. -/
def leave (p : Program) (x : Invoked σ) (v : Value) :
    Move (Invoked σ) (Symbol × List Value) Finish :=
  match x.handover with
  | none => .ended (.returned v)
  | some h =>
    match p.body? h.continuation with
    | none => .ended .faulted
    | some b =>
      .going { stage := .run (.start b h.args), state := w.await x.state h.awaited } none

/-- What a step comes to. -/
def follow (p : Program) (x : Invoked σ) : Step → Move (Invoked σ) (Symbol × List Value) Finish
  | .next a => .going { x with stage := .run a } none
  | .call n args a =>
    match item? p.unit.symbols n with
    | some s => w.call x a s args
    | none => .ended .faulted
  | .done v => w.leave p x v
  | .raised e => .ended (.raised e)
  | .stopped _ => .ended .faulted

/-- What a step comes to that an answer leads to. -/
def proceed (x : Invoked σ) : Step → Move (Invoked σ) (Symbol × List Value) Finish
  | .next a => .going { x with stage := .run a } none
  | .raised e => .ended (.raised e)
  | .stopped f => .ended (.failed f)
  | .call _ _ _ | .done _ => .ended .faulted

/-- What an invocation does next. -/
def move (p : Program) (x : Invoked σ) : Move (Invoked σ) (Symbol × List Value) Finish :=
  let surroundings := w.surroundings p x.state
  match x.stage with
  | .run a => w.follow p x (a.step surroundings)
  | .answered a (.ok v) => proceed x (a.receive surroundings (.ok v))
  | .answered a (.error (.error e)) => proceed x (a.receive surroundings (.error e))
  | .answered _ (.error f) => .ended (.failed f)

/-- The outcome of an awaited future passes for the type that the suspending call declares. -/
def Conforms (p : Program) (x : Invoked σ) : Prop :=
  ∀ a v i s, x.stage = .answered a (.ok v) → a.body.code[a.pc]? = some i →
    p.unit.suspends .standard i → p.unit.callee? i = some s → w.Passes p x.state s.result v.received

/-- Suspending calls that declare objects or nothing take every outcome. -/
theorem conforms_of_object {p : Program}
    (h : ∀ s ∈ p.unit.symbols, CallMatcher.standard s.owner s.name →
      s.result = .void ∨ s.result = .ref ClassName.object) (x : Invoked σ) : w.Conforms p x := by
  intro a v i s _ _ hsuspends hs
  cases i with
  | invoke n =>
    have hmem : s ∈ p.unit.symbols := List.mem_of_getElem? hs
    unfold CodeUnit.suspends at hsuspends
    rw [hs] at hsuspends
    rcases h s hmem (Bool.and_eq_true_iff.mp hsuspends).2 with hvoid | hobject
    · exact .inl hvoid
    · exact .inr (.inl hobject)
  | _ => cases hs

end World

/-- An invocation of a function. -/
def Invoked.start {σ : Type} (b : Body) (args : List Value) (state : σ) : Invoked σ :=
  { stage := .run (.start b args), state }

end Resumable
