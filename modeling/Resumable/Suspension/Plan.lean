import Resumable.CodeUnit.Body
import Resumable.Flow.Reach
import Resumable.Live.Analysis
import Resumable.Suspension.Site

/-!
# The plan of a state machine

Every suspending call that can be reached is a point. When it suspends, the live values are captured
in a record of the point's layout; when it resumes, they are put back. A segment is what can run
from the entry, or after a resumption, until a point is met.
-/

namespace Resumable

/-- One suspending call that can be reached. -/
structure Point where
  /-- The suspending call. -/
  await : Symbol
  /-- The types of the captured values. -/
  fields : List Ty
  /-- The captured positions, in the order of the fields. -/
  live : List UInt32
  /-- The stack below the awaited future, from the bottom up. -/
  stack : List Ty
  /-- The resumption index. The first point has 1. -/
  id : Nat
  instr : Nat
deriving DecidableEq, Repr

/-- The number of values on the stack below the awaited future. -/
def Point.depth (p : Point) : Nat := p.stack.length

/-- The field that holds a position. -/
def Point.field? (p : Point) (pos : UInt32) : Option Nat := p.live.findIdx? (· = pos)

/-- How a function becomes a state machine. -/
structure Plan where
  analysis : Analysis
  points : List Point
  /-- First the blocks that can be reached from the entry, then those that can be reached after a
  resumption at each point, in both cases without passing a point. -/
  segments : List (List Nat)
  /-- The name of the continuation. -/
  continuation : Text
  /-- The number of locals of the function. -/
  locals : Nat
deriving DecidableEq, Repr

namespace Plan

/-- The type of a position before an instruction. -/
def typeAt (locals : Nat) (frame : Frame) (pos : UInt32) : Option Ty :=
  if pos.toNat < locals then frame.locals[pos.toNat]?
  else frame.stack.reverse[pos.toNat - locals]?

/-- Can a value of this type be captured? -/
def capturable : Ty → Bool
  | .top | .void => false
  | _ => true

/-- The point at a suspending call, with the frame before it and what is live after it. -/
def point (u : CodeUnit) (l : Liveness) (id instr : Nat) (frame : Frame) (live : BitSet) :
    Attempt Point := do
  let call ← Attempt.ofOption ((l.body[instr]?).bind u.callee?)
  let stack := frame.stack.tail.reverse
  let typed ← (live.below (l.stackPos stack.length)).toList.mapM fun pos =>
    return (pos, ← Attempt.ofOption (typeAt l.locals frame pos))
  let captured := typed.filter fun (_, t) => capturable t
  return { await := call, fields := captured.map Prod.snd, live := captured.map Prod.fst
           stack, id, instr }

/-- The blocks from which a point resumes: the one right behind it, and the handlers that cover
it. -/
def resumptionRoots (g : Graph) (p : Point) : List Nat :=
  g.blockNumber (p.instr + 1) :: (g.guards.filter (·.covers p.instr)).map Guard.entry

/-- The segments between points. -/
def segmentsOf (g : Graph) (points : List Point) : Attempt (List (List Nat)) := do
  if points.isEmpty then return []
  let cuts := points.map fun p => g.blockNumber p.instr
  let first ← g.reachable [0] (· ∈ cuts)
  let rest ← points.mapM fun p => g.reachable (resumptionRoots g p) (· ∈ cuts)
  return first :: rest

/-- The plan of a function with suspending calls at `sites`. -/
def make (a : Analyzer) (f : Func) (is : List Instr) (sites : List Nat) : Attempt Plan := do
  let g ← Graph.build f.name is f.handlers (sites.map Int.ofNat)
  let analysis ← a.analyze f is g
  let l : Liveness := { unit := a.unit, locals := f.maxLocals.toNat, body := is, analysis }
  let live ← l.forSites sites
  let points ← live.zipIdx.mapM fun ((s, live), k) => do
    let frame ← Attempt.ofOption (analysis.frameAt s)
    point a.unit l (k + 1) s frame live
  return { analysis, points, segments := ← segmentsOf g points
           continuation := f.name ++ continuationSuffix, locals := l.locals }

/-- The plan of the function with an index; nothing if it makes no suspending call. -/
def ofFunction (u : CodeUnit) (loader : Resolver) (matcher : CallMatcher) (index : Int) :
    Attempt (Option Plan) := do
  let f ← Attempt.ofOption (u.function? index)
  let is ← ((u.bodyOf f).mapError fun fault =>
    .error (.decode f.name (some (.ofText fault.message))) : Attempt (List Instr))
  let classes := u.hierarchy loader
  match u.sites matcher is with
  | [] => return none
  | first :: rest =>
    match u.checkUsage classes f is (first :: rest) with
    | .error fault => Attempt.fail (.illegalUsage f.name first (fault.message f.name))
    | .ok _ => return some (← make { unit := u, classes } f is (first :: rest))

end Plan

end Resumable
