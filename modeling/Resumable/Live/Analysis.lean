import Resumable.Live.BitSet
import Resumable.Typing.Analysis

/-!
# Live positions

A position is live if its value may still be read. Locals and stack slots share one numbering: the
locals come first, and behind them the stack slots from the bottom up. What is live is followed
backwards through the flow graph. A throw discards the stack, so only locals are live on the way
into a handler; and since every instruction of a covered block may throw, they are live after each
of them.
-/

namespace Resumable

/-- A body whose frames are known. -/
structure Liveness where
  unit : CodeUnit
  /-- The number of locals. -/
  locals : Nat
  body : List Instr
  analysis : Analysis

namespace Liveness

/-- The position of stack slot `k`, counted from the bottom. -/
def stackPos (l : Liveness) (k : Nat) : UInt32 := UInt32.ofNat (l.locals + k)

/-- Is a position that of a local? -/
def isLocal (l : Liveness) (pos : UInt32) : Bool := pos.toNat < l.locals

/-- The positions that an instruction needs, given those that are needed after it and the height of
the stack before it. -/
def transfer (l : Liveness) (i : Instr) (height : Nat) (after : BitSet) : Attempt BitSet := do
  let (pops, _) ← Attempt.ofOption (i.stackEffect l.unit)
  let base := height - pops
  let kept := after.below (l.stackPos base)
  return match i with
    | .pop => kept
    | .load n => kept.insert n
    | .store n => (kept.erase n).insert (l.stackPos base)
    | _ => ((List.range' base (height - base)).map l.stackPos).foldl BitSet.insert kept

/-- The union of what is needed at the entries of some blocks. -/
def entriesOf (entries : List BitSet) (blocks : List Nat) : BitSet :=
  blocks.foldl (fun s b => s ∪ entries.getD b ∅) ∅

/-- What is needed where control leaves a block without a throw. -/
def liveOut (entries : List BitSet) (b : Block) : BitSet := entriesOf entries b.succs

/-- What the handlers that cover a block need. -/
def liveCaught (l : Liveness) (entries : List BitSet) (b : Block) : BitSet :=
  (entriesOf entries b.excSuccs).below (UInt32.ofNat l.locals)

/-- What is needed before the first of some instructions, which are given from the last one to the
first, when `caught` is needed by handlers. -/
def walkBack (l : Liveness) (caught : BitSet) : List Nat → BitSet → Attempt BitSet
  | [], live => .ok live
  | i :: rest, live => do
    let instr ← Attempt.ofOption l.body[i]?
    let frame ← Attempt.ofOption (l.analysis.frameAt i)
    let live ← l.transfer instr frame.stack.length (live ∪ caught)
    l.walkBack caught rest live

/-- What is needed at the entry of a block. -/
def liveIn (l : Liveness) (entries : List BitSet) (b : Block) : Attempt BitSet :=
  l.walkBack (l.liveCaught entries b) (Subject.members b).reverse (liveOut entries b)

/-- The needs of all entries after one more look at some blocks, and whether that added anything.
Blocks that cannot be reached need nothing. -/
def improve (l : Liveness) : List Block → List BitSet → Attempt (List BitSet × Bool)
  | [], entries => .ok (entries, false)
  | b :: rest, entries => do
    match (l.analysis.entries[b.id]?).join with
    | none => l.improve rest entries
    | some _ =>
      let live ← l.liveIn entries b
      let known := entries.getD b.id ∅
      let (entries, grew) ← l.improve rest (entries.set b.id (known ∪ live))
      return (entries, grew || !live.subset known)

/-- Looks at all blocks, the last one first, until nothing is added any more. -/
def settle (l : Liveness) : (rounds : Nat) → List BitSet → Attempt (List BitSet)
  | 0, _ => .error .endless
  | rounds + 1, entries => do
    let (entries, grew) ← l.improve l.analysis.graph.blocks.reverse entries
    if grew then l.settle rounds entries else return entries

/-- Every round but the last adds a position to a block, and there are no more positions than locals
and pushes. -/
def enoughRounds (l : Liveness) : Nat :=
  l.analysis.graph.blocks.length * (l.locals + l.body.length + 2) + 1

/-- What is needed at the entry of each block. -/
def entries (l : Liveness) : Attempt (List BitSet) :=
  l.settle l.enoughRounds (l.analysis.graph.blocks.map fun _ => ∅)

/-- What is needed after instruction `i`, which ends its block; nothing if it cannot be reached. -/
def liveAfter (l : Liveness) (entries : List BitSet) (i : Nat) : Attempt (Option BitSet) := do
  match ← Attempt.ofOption l.analysis.frames[i]? with
  | none => return none
  | some _ =>
    let b ← Attempt.ofOption (l.analysis.graph.blockAt i)
    return some (liveOut entries b ∪ l.liveCaught entries b)

/-- What is needed after each of some instructions that end their blocks, as far as they can be
reached. -/
def forSites (l : Liveness) (sites : List Nat) : Attempt (List (Nat × BitSet)) := do
  let entries ← l.entries
  let found ← sites.mapM fun s => return (← l.liveAfter entries s).map fun live => (s, live)
  return found.filterMap id

end Liveness

end Resumable
