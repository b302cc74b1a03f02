import Resumable.Emission.Function
import Resumable.Suspension.Plan

/-!
# The code of a state machine

A plan becomes two functions. The first has the name of the function itself: at every point it goes
on at once if the awaited future is done, and otherwise captures what is live, hands it over and
returns the pending future. The second, the continuation, is entered when an awaited future is done:
it puts back what was captured, takes the outcome of the future and goes on behind the point.
-/

namespace Resumable

/-- Places in emitted code. Blocks and points are named by their numbers, from zero. -/
inductive Place
  | blockStart (b : Nat)
  | blockStop (b : Nat)
  /-- Where a point captures what is live. -/
  | slow (p : Nat)
  /-- Where the continuation puts back what a point has captured. -/
  | stub (p : Nat)
  | joinStart (p : Nat)
  | joinStop (p : Nat)
  /-- Where the continuation refuses a resumption index. -/
  | invalid
deriving DecidableEq, Repr

/-- A number for each place. -/
def Place.number : Place → Int
  | invalid => 0
  | blockStart b => 6 * b + 1
  | blockStop b => 6 * b + 2
  | slow p => 6 * p + 3
  | stub p => 6 * p + 4
  | joinStart p => 6 * p + 5
  | joinStop p => 6 * p + 6

/-- A point with the places of its layout and casts in the tables of the unit. -/
structure Stop where
  point : Point
  /-- The number of the point, from zero. -/
  number : Nat
  layout : UInt32
  /-- Gives the value of the joined future the type that the suspending call returns. -/
  adapt : List Instr
deriving DecidableEq, Repr

/-- All that the code of a state machine depends on. -/
structure Emission where
  function : Func
  body : List Instr
  plan : Plan
  stops : List Stop
  isDone : UInt32
  join : UInt32
  suspend : UInt32
  newError : UInt32
  continuationName : UInt32
  resultClass : UInt32
  invalidIndex : UInt32

/-! ### Runtime calls -/

namespace RuntimeCall

def isDone : Symbol := ⟨ClassName.future, "isDone", [.ref ClassName.future], .int⟩

def join : Symbol := ⟨ClassName.future, "join", [.ref ClassName.future], .ref ClassName.object⟩

def suspend : Symbol :=
  ⟨ClassName.machine, "suspend",
   [.ref ClassName.machine, .ref ClassName.future, .ref ClassName.state, .int,
    .ref ClassName.string],
   .ref ClassName.future⟩

def newError : Symbol := ⟨ClassName.error, "new", [.ref ClassName.string], .ref ClassName.error⟩

end RuntimeCall

/-- The class of a reference type; nothing for other types. -/
def Ty.className : Ty → Text
  | .ref cls => cls
  | _ => ∅

namespace Emission

/-! ### Tables -/

/-- Extends the tables of a unit by a layout and a cast for a point. -/
def addStop (f : Func) (point : Point) (number : Nat) : StateM CodeUnit Stop := do
  let layout ← fun u => u.addRecord ⟨f.name, UInt32.ofNat point.id, point.fields⟩
  let adapt ←
    if point.await.result = .void then pure [Instr.pop]
    else if point.await.result.className = ClassName.object then pure []
    else do
      let cls ← fun u => u.addString point.await.result.className
      pure [Instr.checkcast cls]
  return { point, number, layout, adapt }

/-- Extends the tables of a unit by all that the code of a state machine refers to. -/
def prepare (f : Func) (body : List Instr) (plan : Plan) : StateM CodeUnit Emission := do
  let isDone ← fun u => u.addSymbol RuntimeCall.isDone
  let join ← fun u => u.addSymbol RuntimeCall.join
  let suspend ← fun u => u.addSymbol RuntimeCall.suspend
  let newError ← fun u => u.addSymbol RuntimeCall.newError
  let continuationName ← fun u => u.addString plan.continuation
  let resultClass ← fun u => u.addString f.result.className
  let invalidIndex ← fun u => u.addString "invalid resumption index"
  let stops ← plan.points.zipIdx.mapM fun (p, k) => addStop f p k
  return { function := f, body, plan, stops, isDone, join, suspend, newError
           continuationName, resultClass, invalidIndex }

/-! ### Locals -/

/-- The first local behind those of the function. It takes the awaited future; the stack below it
goes to the locals that follow. -/
def scratch (e : Emission) : UInt32 := UInt32.ofNat e.plan.locals

/-- The local for stack slot `k` while a point captures. -/
def spill (e : Emission) (k : Nat) : UInt32 := e.scratch + 1 + UInt32.ofNat k

/-- The deepest stack below an awaited future. -/
def deepest (e : Emission) : Nat := e.plan.points.foldl (fun n p => max n p.depth) 0

/-- The local that parameter `k` of the continuation is moved to. -/
def home (e : Emission) (k : Nat) : UInt32 :=
  e.scratch + 1 + UInt32.ofNat e.deepest + UInt32.ofNat k

/-- The local that holds a captured position. -/
def captured (e : Emission) (pos : UInt32) : UInt32 :=
  if pos.toNat < e.plan.locals then pos else e.spill (pos.toNat - e.plan.locals)

/-! ### Copied blocks -/

/-- A row of instructions without branches. -/
def plain (is : List Instr) : List (Item Place) := is.map fun i => .code (.plain i)

/-- The place of instruction `t`, which starts a block. -/
def target (e : Emission) (t : UInt32) : Place :=
  .blockStart (e.plan.analysis.graph.blockNumber t.toNat)

/-- An instruction whose branches lead to blocks. -/
def relabel (e : Emission) : Instr → Labelled Place
  | .goto t => .goto (e.target t)
  | .branch test t => .branch test (e.target t)
  | .switch low ts d => .switch low (ts.map e.target) (e.target d)
  | i => .plain i

/-- A point: if the future is done, its value is taken at once. -/
def fastPath (e : Emission) (s : Stop) : List (Item Place) :=
  plain [.dup, .invoke e.isDone] ++ [.code (.branch .zero (.slow s.number))] ++
    plain (.invoke e.join :: s.adapt)

/-- What becomes of instruction `pc`. -/
def copyInstr (e : Emission) (pc : Nat) : List (Item Place) :=
  match e.stops.find? (·.point.instr = pc) with
  | some s => e.fastPath s
  | none => ((e.body[pc]?).map fun i => Item.code (e.relabel i)).toList

/-- What becomes of a block. -/
def copyBlock (e : Emission) (b : Block) : List (Item Place) :=
  .mark (.blockStart b.id) :: (Subject.members b).flatMap e.copyInstr ++ [.mark (.blockStop b.id)]

/-- What becomes of the included blocks, in their order. -/
def copyBlocks (e : Emission) (included : List Nat) : List (Item Place) :=
  (e.plan.analysis.graph.blocks.filter (·.id ∈ included)).flatMap e.copyBlock

/-- A handler over a range of places. -/
def handlerOver (g : Guard) (start stop : Place) : LabelledHandler Place :=
  { start, stop, target := .blockStart g.entry, cls := g.cls, region := g.region, kind := g.kind }

/-- What becomes of a handler when only some blocks are copied; nothing if none of its range is. -/
def copyGuard (e : Emission) (included : List Nat) (g : Guard) :
    Attempt (Option (LabelledHandler Place)) :=
  let range := (List.range' g.first (g.last + 1 - g.first)).filter (· ∈ included)
  match range.head?, range.getLast? with
  | some first, some last =>
    if g.entry ∈ included then .ok (some (handlerOver g (.blockStart first) (.blockStop last)))
    else
      Attempt.fail (.internal .transform e.function.name
        "handler entry outside the emitted segments")
  | _, _ => .ok none

/-- What becomes of the handler table. -/
def copyGuards (e : Emission) (included : List Nat) : Attempt (List (LabelledHandler Place)) := do
  return (← e.plan.analysis.graph.guards.mapM (e.copyGuard included)).filterMap id

/-! ### Suspension -/

/-- Captures what is live at a point, hands over the pending future, and returns. The machine is not
there yet when the function itself suspends. -/
def slowPath (e : Emission) (machine : Option UInt32) (s : Stop) : List (Item Place) :=
  .mark (.slow s.number) :: plain (
    [.store e.scratch] ++
    (List.range s.point.depth).reverse.map (fun k => .store (e.spill k)) ++
    [machine.elim .null .load, .load e.scratch] ++
    s.point.live.map (fun pos => .load (e.captured pos)) ++
    [.newrec s.layout, .iconst (Int64.ofNat s.point.id), .sconst e.continuationName,
     .invoke e.suspend] ++
    (if e.function.result.className = ClassName.future then [] else [.checkcast e.resultClass]) ++
    [.retval])

/-- The function itself, once it can suspend. -/
def suspendable (e : Emission) : Attempt (Fragment Place) := do
  let included := e.plan.segments.flatten
  return { items := e.copyBlocks included ++ e.stops.flatMap (e.slowPath none)
           handlers := ← e.copyGuards included }

/-! ### Resumption -/

/-- Moves the parameters of the continuation out of the way of the locals of the function, the last
one first. -/
def moveParams (e : Emission) : List (Item Place) :=
  [3, 2, 1, 0].flatMap fun k => plain [.load (UInt32.ofNat k), .store (e.home k)]

/-- Chooses the stub of the resumption index. -/
def dispatch (e : Emission) : List (Item Place) :=
  plain [.load (e.home 1)] ++
  [.code (.switch 1 (e.stops.map fun s => .stub s.number) .invalid), .mark .invalid] ++
  plain [.sconst e.invalidIndex, .invoke e.newError, .raise]

/-- Puts back the captured locals of a point. -/
def restoreLocals (e : Emission) (s : Stop) : List Instr :=
  s.point.live.zipIdx.flatMap fun (pos, k) =>
    if pos.toNat < e.plan.locals then
      [.load (e.home 2), .recget s.layout (UInt32.ofNat k), .store pos]
    else []

/-- Puts back the stack below the awaited future. A slot that nobody reads gets a placeholder. -/
def restoreStack (e : Emission) (s : Stop) : List Instr :=
  s.point.stack.zipIdx.flatMap fun (t, j) =>
    match s.point.field? (UInt32.ofNat (e.plan.locals + j)) with
    | some k => [.load (e.home 2), .recget s.layout (UInt32.ofNat k)]
    | none => if t = .int then [.iconst 0] else [.null]

/-- Resumes a point. -/
def stub (e : Emission) (s : Stop) : List (Item Place) :=
  .mark (.stub s.number) :: plain (e.restoreLocals s ++ e.restoreStack s) ++
  [.mark (.joinStart s.number)] ++ plain ([.load (e.home 3), .invoke e.join] ++ s.adapt) ++
  [.mark (.joinStop s.number),
   .code (.goto (.blockStart (e.plan.analysis.graph.blockNumber (s.point.instr + 1))))]

/-- The handlers that cover a point also cover the call that takes the outcome of its future. -/
def joinHandlers (e : Emission) (s : Stop) : List (LabelledHandler Place) :=
  (e.plan.analysis.graph.guards.filter (·.covers s.point.instr)).map fun g =>
    handlerOver g (.joinStart s.number) (.joinStop s.number)

/-- Does the block of a point belong to the included ones? -/
def hasStop (e : Emission) (included : List Nat) (s : Stop) : Bool :=
  e.plan.analysis.graph.blockNumber s.point.instr ∈ included

/-- The continuation. -/
def continuation (e : Emission) : Attempt (Fragment Place) := do
  let included := e.plan.segments.tail.flatten
  return {
    items := e.moveParams ++ e.dispatch ++ e.stops.flatMap e.stub ++ e.copyBlocks included ++
      (e.stops.filter (e.hasStop included)).flatMap (e.slowPath (some (e.home 0)))
    handlers := (← e.copyGuards included) ++ e.stops.flatMap e.joinHandlers }

/-! ### Functions -/

/-- The signature of the function itself. -/
def suspendableProto (e : Emission) : Func :=
  { e.function with flags := e.function.flags ||| Func.transformedFlag }

/-- The signature of the continuation. -/
def continuationProto (e : Emission) : Func :=
  { name := e.plan.continuation
    params := [.ref ClassName.machine, .int, .ref ClassName.state, .ref ClassName.future]
    result := e.function.result
    maxLocals := e.home 3 + 1
    flags := Func.transformedFlag ||| Func.continuationFlag }

/-- Both functions. -/
def functions (e : Emission) (a : Analyzer) : Attempt (Func × Func) := do
  let build (code : Attempt (Fragment Place)) (proto : Func) : Attempt Func := do
    (← code).build Place.number a.unit proto a.blockFrames
  let f ← build e.suspendable e.suspendableProto
  let c ← build e.continuation e.continuationProto
  return (f, c)

end Emission

end Resumable
