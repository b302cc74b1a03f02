import Resumable.Exec.Program

/-!
# Threads

A thread is a computation in progress: what runs now, what waits for its result, and the store.
Calls nest, callbacks run inside the step that settles their future, and a callback may resume a
machine or run code of the host, which call functions in turn; so what waits is a stack of contexts. A thread takes steps
until it has a result. Programs may run for ever, so a run is given a number of steps.
-/

namespace Resumable

/-- An activation, with how deep its call is nested and how long it waits for futures. -/
structure Job where
  activation : Activation
  depth : Nat
  patience : Patience
deriving Repr

/-- What waits for a result. -/
inductive Context
  /-- A function waits for the answer of its call. -/
  | caller (j : Job)
  /-- More callbacks are to be run for a future that was settled this way. -/
  | deliver (rest : List Callback) (outcome : Outcome)
  /-- A machine waits for the result of its continuation. -/
  | resumed (machine : Nat)
  /-- A value is the answer, whatever was waited for. -/
  | answer (v : Value)
  /-- Code of the host goes on. -/
  | host (next : Except Error Value → Host)

/-- What runs now. -/
inductive Control
  | run (j : Job)
  /-- A result goes to the innermost context. -/
  | give (r : Except Error Value)
  /-- Code of the host runs. -/
  | host (code : Host)

/-- A computation in progress. -/
structure Thread where
  control : Control
  contexts : List Context
  store : Store

/-- Where a computation is after a step. -/
inductive Progress
  | going (t : Thread)
  | finished (r : Except Error Value) (s : Store)
  /-- It cannot go on. -/
  | broken (f : Failure) (s : Store)

namespace Thread

/-- Goes on with the result of a call. -/
def giving (r : Except Error Value) (contexts : List Context) (s : Store) : Progress :=
  .going { control := .give r, contexts, store := s }

/-- Goes on with a value that nobody looks at. -/
def idle (contexts : List Context) (s : Store) : Progress := giving (.ok .null) contexts s

/-- Goes on with code of the host. -/
def hosting (code : Host) (contexts : List Context) (s : Store) : Progress :=
  .going { control := .host code, contexts, store := s }

/-! ### Calls -/

/-- Starts a function. -/
def enter (p : Program) (b : Body) (args : List Value) (depth : Nat) (patience : Patience)
    (contexts : List Context) (s : Store) : Progress :=
  if p.maxDepth < depth then
    giving (.error (.ofReport
      { phase := .runtime, problem := .outOfBounds, function := b.func.name
        detail := "call depth " ++ Text.ofInt p.maxDepth ++ " exceeded" })) contexts s
  else
    .going { control := .run { activation := .start b args, depth, patience }
             contexts, store := s }

/-- Starts the function with a name, as a call from outside. -/
def call (p : Program) (name : Text) (args : List Value) (patience : Patience)
    (contexts : List Context) (s : Store) : Progress :=
  match p.body? name with
  | none => giving (.error (.notFound .runtime "function" name)) contexts s
  | some b =>
    if args.length ≠ b.func.params.length then
      giving (.error (.ofReport
        { phase := .runtime, problem := .invalidInput, function := name
          detail := "expected " ++ Text.ofNat b.func.params.length ++ " arguments, got " ++
            Text.ofNat args.length })) contexts s
    else enter p b (args.map Value.received) 0 patience contexts s

/-! ### Callbacks -/

/-- Settles a future and runs its callbacks. A future that is settled already stays as it is. -/
def settle (f : Nat) (o : Outcome) (contexts : List Context) (s : Store) : Progress :=
  if s.isDone f then idle contexts s
  else
    let (callbacks, s) := s.settle f o
    idle (.deliver callbacks o :: contexts) s

/-- Settles the future that a machine has promised. -/
def settleResult (m : Nat) (o : Outcome) (contexts : List Context) (s : Store) : Progress :=
  match s.machines[m]? with
  | none => .broken .outOfRange s
  | some x => settle x.result o contexts s

/-- The log entry about a resumption. -/
def resumeEntry (x : Machine) (index : Int64) : LogEntry where
  level := .debug
  message := "resuming"
  fields := [("continuation", .text x.continuation), ("index", .number index.toInt),
    ("resume", .number x.resumes)]

/-- Runs a callback of a future that was settled. -/
def fire (p : Program) (o : Outcome) (contexts : List Context) (s : Store) : Callback → Progress
  | .resume m index state awaited =>
    let s := s.countResume m
    match s.machines[m]? with
    | none => .broken .outOfRange s
    | some x =>
      call p x.continuation [.machine m, .int index, state, .future awaited] .forever
        (.resumed m :: contexts) (if p.debug then s.log (resumeEntry x index) else s)
  | .link m => settleResult m o contexts s
  | .host act => hosting (act o) contexts s

/-- Registers a callback, or runs it at once if the future is settled. -/
def register (p : Program) (f : Nat) (c : Callback) (contexts : List Context) (s : Store) :
    Progress :=
  match s.outcome? f with
  | some o => fire p o contexts s c
  | none => idle contexts (s.register f c)

/-- Takes the result of a continuation. If it is another future than the promised one, the promised
one gets its outcome. -/
def finishResume (p : Program) (m : Nat) (contexts : List Context) (s : Store) :
    Except Error Value → Progress
  | .error e => settleResult m (.failed e) contexts s
  | .ok (.future f) =>
    if ((s.machines[m]?).map (·.result)) = some f then idle contexts s
    else register p f (.link m) contexts s
  | .ok v => settleResult m (.value v) contexts s

/-! ### Natives -/

/-- Does what code of the host does next. -/
def act (p : Program) (contexts : List Context) (s : Store) : Host → Progress
  | .done r => giving r contexts s
  | .stop f => .broken f s
  | .named name next => hosting (next (s.named? name)) contexts s
  | .outcome f next => hosting (next (s.outcome? f)) contexts s
  | .note e next => hosting next contexts (s.note e)
  | .make cls outcome next =>
    let (f, s) := s.newFuture { cls, outcome }
    hosting (next f) contexts s
  | .settle f o next => settle f o (.host (fun _ => next (!s.isDone f)) :: contexts) s
  | .register f act next => register p f (.host act) (.host (fun _ => next) :: contexts) s
  | .call name args patience next => call p name args patience (.host next :: contexts) s

/-- Does what a native replies. -/
def reply (p : Program) (contexts : List Context) (s : Store) : Reply → Progress
  | .value v => giving (.ok v) contexts s
  | .act code => hosting code contexts s
  | .register f c v => register p f c (.answer v :: contexts) s

/-- The call of a native by the current instruction of a job. -/
def invocation (p : Program) (j : Job) (args : List Value) : Invocation where
  args := args
  function := j.activation.body.func.name
  instr := j.activation.pc
  patience := j.patience
  lookup name := (p.body? name).map (·.func)
  debug := p.debug

/-- The error of a call that leads nowhere. -/
def unresolved (j : Job) (sym : Symbol) : Error :=
  .ofReport { phase := .runtime, problem := .notFound, function := j.activation.body.func.name
              instr := j.activation.pc, detail := "unresolved symbol " ++ sym.text }

/-- Makes the call that a job waits for. -/
def invoke (p : Program) (j : Job) (symbol : UInt32) (args : List Value) (contexts : List Context)
    (s : Store) : Progress :=
  match item? p.unit.symbols symbol with
  | none => .broken .outOfRange s
  | some sym =>
    if sym.owner.isEmpty then
      match p.body? sym.name with
      | some b => enter p b args (j.depth + 1) j.patience contexts s
      | none => giving (.error (unresolved j sym)) contexts s
    else
      match p.native? sym.key with
      | none => giving (.error (unresolved j sym)) contexts s
      | some native =>
        match (ExceptT.run (native (invocation p j args))) s with
        | (.ok r, s) => reply p contexts s r
        | (.error (.error e), s) => giving (.error e) contexts s
        | (.error f, s) => .broken f s

/-! ### Steps -/

/-- Does what a step of an activation asks for. -/
def follow (p : Program) (j : Job) (contexts : List Context) (s : Store) : Step → Progress
  | .next a => .going { control := .run { j with activation := a }, contexts, store := s }
  | .call symbol args a =>
    let j := { j with activation := a }
    invoke p j symbol args (.caller j :: contexts) s
  | .done v => giving (.ok v) contexts s
  | .raised e => giving (.error e.toError) contexts s
  | .stopped (.error e) => giving (.error e) contexts s
  | .stopped f => .broken f s

/-- Gives a result to the innermost context. -/
def give (p : Program) (r : Except Error Value) (s : Store) : List Context → Progress
  | [] => .finished r s
  | .caller j :: rest => follow p j rest s (j.activation.receive (p.surroundings s) r)
  | .deliver [] _ :: rest => idle rest s
  | .deliver (c :: more) o :: rest => fire p o (.deliver more o :: rest) s c
  | .resumed m :: rest => finishResume p m rest s r
  | .answer v :: rest => giving (.ok v) rest s
  | .host next :: rest => hosting (next r) rest s

/-- One step of a thread. -/
def step (p : Program) (t : Thread) : Progress :=
  match t.control with
  | .run j => follow p j t.contexts t.store (j.activation.step (p.surroundings t.store))
  | .give r => give p r t.store t.contexts
  | .host code => act p t.contexts t.store code

end Thread

/-- Takes steps until there is a result. -/
def Progress.run (p : Program) : (steps : Nat) → Progress → Attempt (Except Error Value) × Store
  | _, .finished r s => (.ok r, s)
  | _, .broken f s => (.error f, s)
  | 0, .going t => (.error .endless, t.store)
  | steps + 1, .going t => run p steps (t.step p)

namespace Program

/-- More steps than anyone waits for. -/
def enoughSteps : Nat := Nat.pow 2 62

/-- Calls a function of the unit. -/
def call (p : Program) (name : Text) (args : List Value) (patience : Patience) (s : Store) :
    Attempt (Except Error Value) × Store :=
  (Thread.call p name args patience [] s).run p enoughSteps

/-- Settles a future, and tells whether it was still pending. -/
def settle (p : Program) (f : Nat) (o : Outcome) (s : Store) : Attempt Bool × Store :=
  let pending := !s.isDone f
  let (r, s) := (Thread.settle f o [] s).run p enoughSteps
  (r.map fun _ => pending, s)

/-- Registers a callback on a future. -/
def register (p : Program) (f : Nat) (c : Callback) (s : Store) : Attempt Unit × Store :=
  let (r, s) := (Thread.register p f c [] s).run p enoughSteps
  (r.map fun _ => (), s)

/-- Waits for a future. -/
def join (f : Nat) (patience : Patience) (s : Store) : Attempt Value :=
  match s.outcome? f with
  | some (.value v) => .ok v
  | some (.failed e) => Attempt.fail e
  | none => .error patience.givesUp

end Program

end Resumable
