import Resumable.Exec.Thread

/-!
# The history of machines

What happens to machines while programs run: suspensions, resumptions, the ends of activations and
the outcomes of promised futures. `Thread.milestones` reads off a thread what its next step does to
machines, and a `Run` collects it, over all that a host may do from outside, in callbacks and in
natives. `Disciplined` is what is asked of a history: activations behave like those of functions that
were made to suspend, and nobody meddles with a future that a machine has promised.
-/

namespace Resumable

/-! ## Milestones -/

/-- What a suspension hands over for the resumption. -/
structure Parcel where
  index : Int64
  state : Value
  awaited : Nat

/-- The callback that delivers a parcel to a machine. -/
def Parcel.callback (d : Parcel) (m : Nat) : Callback := .resume m d.index d.state d.awaited

/-- Something that happens to a machine. -/
inductive Milestone
  /-- A machine is suspended. It may have been made for that. -/
  | suspended (m : Nat) (fresh : Bool) (d : Parcel)
  /-- A parcel is delivered: the continuation of the machine is called. -/
  | resumed (m : Nat) (d : Parcel)
  /-- An activation ends with the future that the machine has promised. -/
  | kept (m : Nat)
  /-- An activation ends in any other way. -/
  | concluded (m : Nat) (r : Except Error Value)
  /-- The machine gives the promised future an outcome. -/
  | settled (m : Nat) (o : Outcome)
  /-- Someone else gives the promised future an outcome. -/
  | intruded (m : Nat)
  /-- The machine waits for a future that does not exist. -/
  | lost (m : Nat)

/-- The machine that a callback is for. -/
def Callback.machine? : Callback → Option Nat
  | .resume m _ _ _ | .link m => some m
  | .host _ => none

/-- The machine that has promised a future. -/
def Store.promiser? (s : Store) (f : Nat) : Option Nat := s.machines.findIdx? (·.result = f)

namespace Thread

/-- Someone who is no machine settles a future. -/
def intruding (s : Store) (f : Nat) : List Milestone :=
  if s.isDone f then [] else ((s.promiser? f).map .intruded).toList

/-- A callback is run. What code of the host does comes later. -/
def firing (o : Outcome) : Callback → List Milestone
  | .resume m index state awaited => [.resumed m ⟨index, state, awaited⟩]
  | .link m => [.settled m o]
  | .host _ => []

/-- A callback is registered, or run at once. -/
def registering (s : Store) (f : Nat) (c : Callback) : List Milestone :=
  match s.outcome? f with
  | some o => firing o c
  | none => if f < s.futures.length then [] else (c.machine?.map .lost).toList

/-- An activation of a machine ends. -/
def finishing (s : Store) (m : Nat) : Except Error Value → List Milestone
  | .error e => [.concluded m (.error e), .settled m (.failed e)]
  | .ok (.future f) =>
    if ((s.machines[m]?).map (·.result)) = some f then [.kept m]
    else .concluded m (.ok (.future f)) :: registering s f (.link m)
  | .ok v => [.concluded m (.ok v), .settled m (.value v)]

/-- Code of the host does what it does next. -/
def acting (s : Store) : Host → List Milestone
  | .settle f _ _ => intruding s f
  | _ => []

/-- A native that found `count` machines has replied. Only a suspension registers a resumption. -/
def replying (count : Nat) (s : Store) : Reply → List Milestone
  | .register f (.resume m index state awaited) _ =>
    .suspended m (count ≤ m) ⟨index, state, awaited⟩ ::
      registering s f (.resume m index state awaited)
  | .register f c _ => registering s f c
  | .value _ | .act _ => []

/-- A call is made. -/
def invoking (p : Program) (j : Job) (symbol : UInt32) (args : List Value) (s : Store) :
    List Milestone :=
  match item? p.unit.symbols symbol with
  | none => []
  | some sym =>
    if sym.owner.isEmpty then []
    else
      match p.native? sym.key with
      | none => []
      | some native =>
        match (ExceptT.run (native (invocation p j args))) s with
        | (.ok r, s') => replying s.machines.length s' r
        | _ => []

/-- What the next step of a thread does to machines. -/
def milestones (p : Program) (t : Thread) : List Milestone :=
  match t.control with
  | .run j =>
    match j.activation.step (p.surroundings t.store) with
    | .call symbol args a => invoking p { j with activation := a } symbol args t.store
    | _ => []
  | .give r =>
    match t.contexts with
    | .deliver (c :: _) o :: _ => firing o c
    | .resumed m :: _ => finishing t.store m r
    | _ => []
  | .host code => acting t.store code

end Thread

/-! ## Runs -/

/-- A change that leaves alone what machines wait for and what they have promised. There may be new
futures, and all else may be different. -/
structure Store.Grows (s s' : Store) : Prop where
  futures : ∃ new : List Future, s'.futures = s.futures ++ new ∧ ∀ x ∈ new, x.callbacks = []
  results : s'.machines.map (·.result) = s.machines.map (·.result)

/-- A reply that asks for no resumption. -/
def Reply.Fair : Reply → Prop
  | .register _ c _ => c.machine? = none
  | .value _ | .act _ => True

/-- Work that leaves machines alone, and whose results have a property. -/
def NativeM.Fair {α : Type} (P : α → Prop) (x : NativeM α) : Prop :=
  ∀ s, s.Grows (ExceptT.run x s).2 ∧ ∀ a, (ExceptT.run x s).1 = .ok a → P a

/-- The natives of the host leave machines alone while they make up their reply. In the code that they
reply with they may do what the host can do anywhere. -/
def Program.FairHost (p : Program) : Prop :=
  ∀ key native, p.host key = some native → ∀ c, NativeM.Fair Reply.Fair (native c)

/-- What a program does to machines, from the beginning. From outside the host may run any code, which
settles futures in any order, registers callbacks and calls functions, and change the store. -/
inductive Run (p : Program) : List Milestone → Progress → Prop
  | start : Run p [] (.finished (.ok .null) {})
  | grow {es : List Milestone} {r : Except Error Value} {s s' : Store}
      (h : Run p es (.finished r s)) (hs : s.Grows s') : Run p es (.finished r s')
  | act {es : List Milestone} {r : Except Error Value} {s : Store}
      (h : Run p es (.finished r s)) (code : Host) : Run p es (Thread.hosting code [] s)
  | step {es : List Milestone} {t : Thread} (h : Run p es (.going t)) :
      Run p (es ++ t.milestones p) (t.step p)

/-! ## Discipline -/

/-- An activation of a machine that has not ended yet. -/
structure Underway where
  machine : Nat
  suspended : Bool
deriving DecidableEq

/-- The activations that are under way after a milestone, the innermost first; nothing if the milestone
should not be there. An activation suspends its own machine once at most, and returns the promised
future if it has done so. -/
def Milestone.goOn : List Underway → Milestone → Option (List Underway)
  | us, .suspended _ true _ => some us
  | ⟨m', false⟩ :: us, .suspended m false _ => if m' = m then some (⟨m, true⟩ :: us) else none
  | us, .resumed m _ => some (⟨m, false⟩ :: us)
  | _ :: us, .kept _ => some us
  | ⟨_, false⟩ :: us, .concluded _ _ => some us
  | us, .settled _ _ => some us
  | _, _ => none

/-- The activations that are under way at the end of a history. -/
def underway (es : List Milestone) : Option (List Underway) := es.foldlM Milestone.goOn []

/-- A history in which activations do as they should, and nobody else settles promised futures. -/
def Disciplined (es : List Milestone) : Prop := (underway es).isSome

/-- An activation of a machine ended with the promised future although it had not suspended. -/
def Stranded (es : List Milestone) (m : Nat) : Prop :=
  ∃ es₁ es₂ us, es = es₁ ++ .kept m :: es₂ ∧ underway es₁ = some (⟨m, false⟩ :: us)

/-! ## What histories tell about a machine -/

section

variable (m : Nat) (es : List Milestone)

/-- The parcels that a machine was suspended with. -/
def suspensions : List Parcel := es.filterMap fun
  | .suspended m' _ d => if m' = m then some d else none
  | _ => none

/-- The parcels that were delivered to a machine. -/
def deliveries : List Parcel := es.filterMap fun
  | .resumed m' d => if m' = m then some d else none
  | _ => none

/-- How activations of a machine ended that did not suspend it. -/
def conclusions : List (Except Error Value) := es.filterMap fun
  | .concluded m' r => if m' = m then some r else none
  | _ => none

/-- The outcomes that a machine gave to the future that it has promised. -/
def settlements : List Outcome := es.filterMap fun
  | .settled m' o => if m' = m then some o else none
  | _ => none

end

/-- The callbacks for a machine that are registered, with their futures. -/
def Store.registrations (s : Store) (m : Nat) : List (Nat × Callback) :=
  s.futures.zipIdx.flatMap fun (x, f) => (x.callbacks.filter (·.machine? = some m)).map (f, ·)

/-- The outcome that the end of an activation leads to. -/
def Leads (s : Store) : Except Error Value → Outcome → Prop
  | .error e, o => o = .failed e
  | .ok (.future f), o => s.outcome? f = some o
  | .ok v, o => o = .value v

end Resumable
