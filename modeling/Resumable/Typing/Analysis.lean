import Resumable.Flow.Graph
import Resumable.Typing.Transfer

/-!
# The frames of a body

Frames are carried along the edges of the flow graph until nothing changes. A handler can be entered
from before any instruction that it covers, with the locals of that place and the caught error alone
on the stack. What is left is a frame for the entry of every block that can be reached, and from it
one for every instruction.
-/

namespace Resumable

/-- A body with all that its types depend on. -/
structure Subject where
  ctx : TypingContext
  body : List Instr
  graph : Graph

/-- The frames of a body. -/
structure Analysis where
  graph : Graph
  /-- The frame before each instruction that can be reached. -/
  frames : List (Option Frame)
  /-- The frame at the entry of each block that can be reached. -/
  entries : List (Option Frame)
  resolutions : List Resolution
deriving DecidableEq, Repr

/-- The frame before instruction `i`, if it can be reached. -/
def Analysis.frameAt (a : Analysis) (i : Nat) : Option Frame := (a.frames[i]?).join

/-- Frames on their way through the graph. -/
structure Propagation where
  entries : List (Option Frame)
  /-- Blocks whose entry frame has changed since they were last walked, the oldest first. -/
  queue : List Nat
deriving DecidableEq, Repr

namespace Propagation

/-- Gives a block an entry frame and queues it. -/
def enter (p : Propagation) (b : Nat) (f : Frame) : Propagation :=
  { entries := p.entries.set b (some f)
    queue := if b ∈ p.queue then p.queue else p.queue ++ [b] }

end Propagation

namespace Subject

/-- The report about frames that do not fit together at the start of a block. -/
def joinError (s : Subject) (target origin : Nat) (fault : JoinFault) : Error :=
  .ofReport
    { phase := .analyze, problem := .typeMismatch, function := s.ctx.function, instr := target
      path := match fault with
        | .height => []
        | .slot i => ["stack", Text.ofNat i]
      detail := (match fault with
        | .height => "stack height differs"
        | .slot _ => "incompatible stack types") ++ " when joining from " ++ Text.ofNat origin }

/-- Carries a frame from instruction `origin` to the entry of a block. -/
def flow (s : Subject) (origin : Nat) (p : Propagation) (target : Nat) (f : Frame) :
    Attempt Propagation := do
  match ← Attempt.ofOption p.entries[target]? with
  | none => return p.enter target f
  | some old =>
    match s.ctx.classes.joinFrames old f with
    | .error fault =>
      let block ← Attempt.ofOption s.graph.blocks[target]?
      Attempt.fail (s.joinError block.start origin fault)
    | .ok new => return if new = old then p else p.enter target new

/-- The frame that a handler sees when an instruction with this frame before it throws. -/
def caughtFrame (h : Guard) (before : Frame) : Frame :=
  { before with stack := [.ref (if h.cls.isEmpty then ClassName.error else h.cls)] }

/-- Carries the frame before instruction `i` to the handlers that cover it. -/
def flowToHandlers (s : Subject) (p : Propagation) (i : Nat) (before : Frame) :
    Attempt Propagation :=
  (s.graph.guards.filter (·.covers i)).foldlM
    (fun p h => s.flow i p h.entry (caughtFrame h before)) p

/-- Walks over instructions that follow each other and shows `visit` the frame before each. -/
def walk {σ : Type} (s : Subject) (visit : σ → Nat → Frame → Attempt σ) :
    List Nat → σ → TypingState → Attempt (σ × TypingState)
  | [], acc, t => .ok (acc, t)
  | i :: rest, acc, t => do
    let acc ← visit acc i t.frame
    let instr ← Attempt.ofOption s.body[i]?
    match Transfer.run s.ctx i instr t with
    | (.error e, _) => throw e
    | (.ok _, t) => s.walk visit rest acc t

/-- The instructions of a block. -/
def members (b : Block) : List Nat := List.range' b.start (b.stop - b.start)

/-- Walks a block from its entry frame and carries what is found to its successors. -/
def spread (s : Subject) (p : Propagation) (b : Nat) : Attempt Propagation := do
  let block ← Attempt.ofOption s.graph.blocks[b]?
  let entry ← Attempt.ofOption (p.entries[b]?).join
  let (p, t) ← s.walk s.flowToHandlers (members block) p { frame := entry }
  block.succs.foldlM (fun p b => s.flow block.last p b t.frame) p

/-- Spreads queued blocks until none is left. -/
def settle (s : Subject) : (rounds : Nat) → Propagation → Attempt Propagation
  | 0, p => if p.queue.isEmpty then .ok p else .error .endless
  | rounds + 1, p =>
    match p.queue with
    | [] => .ok p
    | b :: queue => do
      let p ← s.spread { p with queue } b
      s.settle rounds p

/-- The frame at the entry of the function: parameters, and locals that were never written. -/
def entryFrame (params : List Ty) (locals : Nat) : Frame :=
  { locals := (params ++ List.replicate (locals - params.length) Ty.top).take locals, stack := [] }

/-- More rounds than anyone can wait for. If every join goes up a class hierarchy without cycles, a
slot goes through at most 257 classes and a block has as many slots as there are locals and pushes, so
a run ends long before. In a hierarchy with cycles a run may have no end. -/
def enoughRounds (s : Subject) (locals : Nat) : Nat :=
  (s.graph.blocks.length + 1) * (locals + 2 * s.body.length + 2) * Nat.pow 2 40

/-- The entry frames of all blocks. -/
def propagate (s : Subject) (entry : Frame) : Attempt Propagation :=
  s.settle (s.enoughRounds entry.locals.length)
    { entries := (s.graph.blocks.map fun _ => none).set 0 (some entry), queue := [0] }

/-- The frames before the instructions of a block, and the resolutions in it. -/
def record (s : Subject) (b : Block) (entry : Frame) :
    Attempt (List (Nat × Frame) × List Resolution) := do
  let (frames, t) ← s.walk (fun acc i f => .ok (acc ++ [(i, f)])) (members b) [] { frame := entry }
  return (frames, t.resolved)

/-- The frames before the instructions of all blocks with an entry frame, and the resolutions in
them. -/
def recordAll (s : Subject) : List (Block × Option Frame) →
    Attempt (List (Nat × Frame) × List Resolution)
  | [] => .ok ([], [])
  | (_, none) :: rest => s.recordAll rest
  | (b, some entry) :: rest => do
    let (frames, resolved) ← s.record b entry
    let (frames', resolved') ← s.recordAll rest
    return (frames ++ frames', resolved ++ resolved')

/-- The resolutions without those whose instruction and slot came before. -/
def distinctResolutions (rs : List Resolution) : List Resolution :=
  rs.foldl (fun out r =>
    if out.any fun o => o.instr = r.instr && o.slot = r.slot then out else out ++ [r]) []

end Subject

/-- How the functions of a unit are analysed. -/
structure Analyzer where
  unit : CodeUnit
  classes : Hierarchy
  /-- The opcodes that the analysis can handle. -/
  supports : Opcode → Bool := fun _ => true

namespace Analyzer

/-- The body of a function as a subject of analysis. -/
def subject (a : Analyzer) (f : Func) (is : List Instr) (g : Graph) : Subject :=
  { ctx := { unit := a.unit, classes := a.classes, function := f.name, result := f.result }
    body := is, graph := g }

/-- The frames of a body with a known graph. -/
def analyze (a : Analyzer) (f : Func) (is : List Instr) (g : Graph) : Attempt Analysis := do
  if let some op := (is.map Instr.opcode).find? (fun op => !a.supports op) then
    Attempt.fail (.ofReport { phase := .analyze, problem := .unsupported, function := f.name
                              detail := "no handler for opcode " ++ op.name })
  let s := a.subject f is g
  let p ← s.propagate (Subject.entryFrame f.params f.maxLocals.toNat)
  let (frames, resolved) ← s.recordAll (g.blocks.zip p.entries)
  return {
    graph := g
    frames := (List.range is.length).map fun i => frames.lookup i
    entries := p.entries
    resolutions := Subject.distinctResolutions resolved }

/-- The frame table of a body: the frame at the entry of every block that can be reached. -/
def blockFrames (a : Analyzer) (f : Func) (is : List Instr) : Attempt (List FrameEntry) := do
  let g ← Graph.build f.name is f.handlers []
  let an ← a.analyze f is g
  return (g.blocks.zip an.entries).filterMap fun (b, entry) => entry.map (·.toEntry b.start)

end Analyzer

end Resumable
