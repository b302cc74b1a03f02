import Resumable.Error
import Resumable.Instr.Basic

/-!
# The control-flow graph

A body is cut into blocks: runs of instructions that are entered at the front and left at the back.
Cuts are made before every branch target, after every instruction that ends a block, around and at
the target of every handler range, and after instructions that the caller names. So a handler covers
a block entirely or not at all.
-/

namespace Resumable

/-- Instructions `start`, …, `stop - 1`. -/
structure Block where
  id : Nat
  start : Nat
  stop : Nat
  /-- Blocks that control can go to next, the one right behind first. -/
  succs : List Nat
  /-- Entry blocks of the handlers that cover the block, in the order of the handler table. -/
  excSuccs : List Nat
deriving DecidableEq, Repr

/-- The last instruction of a block. -/
def Block.last (b : Block) : Nat := b.stop - 1

/-- A handler whose range is known in blocks. -/
structure Guard where
  cls : Text
  index : Nat
  start : Nat
  stop : Nat
  /-- The first and the last block of the range. -/
  first : Nat
  last : Nat
  /-- The block where the handler starts. -/
  entry : Nat
  region : UInt32
  kind : UInt8
deriving DecidableEq, Repr

/-- Is instruction `i` protected? -/
def Guard.covers (g : Guard) (i : Nat) : Bool := g.start ≤ i && i < g.stop

/-- The control-flow graph of a body. Block 0 is the entry. -/
structure Graph where
  blocks : List Block
  guards : List Guard
  /-- The block of each instruction. -/
  blockOf : List Nat
deriving DecidableEq, Repr

/-- Why a body has no graph. -/
inductive GraphFault
  | empty
  | branchTarget (pc : Nat) (target : UInt32)
  | fallsOff
  | handlerRange (index : Nat)
  | cut (what : Text) (pc : Int)
deriving DecidableEq, Repr

/-- The text of a fault. -/
def GraphFault.message : GraphFault → Text
  | .empty => "empty body"
  | .branchTarget pc t =>
    "instruction " ++ Text.ofNat pc ++ ": branch target " ++ Text.ofNat t.toNat ++ " out of range"
  | .fallsOff => "execution falls off the end"
  | .handlerRange k => "handler " ++ Text.ofNat k ++ ": invalid range"
  | .cut what pc => what ++ " " ++ Text.ofInt pc ++ " out of range"

namespace Graph

/-! ### Checks -/

/-- Checks the instruction at `pc` of a body of `n` instructions. -/
def checkInstr (n : Nat) (i : Instr) (pc : Nat) : Except GraphFault Unit :=
  match i.targets.find? (fun t => n ≤ t.toNat) with
  | some t => .error (.branchTarget pc t)
  | none => if i.fallsThrough && pc + 1 = n then .error .fallsOff else .ok ()

/-- Checks entry `k` of the handler table. -/
def checkHandler (n : Nat) (h : Handler) (k : Nat) : Except GraphFault Unit :=
  if h.stop ≤ h.start || n ≤ h.target.toNat then .error (.handlerRange k)
  else if n < h.start.toNat then .error (.cut "handler start" h.start.toNat)
  else if n < h.stop.toNat then .error (.cut "handler end" h.stop.toNat)
  else .ok ()

/-- Checks that a cut can be made after instruction `s`. -/
def checkSplit (n : Nat) (s : Int) : Except GraphFault Unit :=
  if s + 1 < 0 || n < s + 1 then .error (.cut "split" (s + 1)) else .ok ()

/-- Checks everything that cuts are made for. -/
def check (is : List Instr) (handlers : List Handler) (splits : List Int) :
    Except GraphFault Unit := do
  if is.isEmpty then throw .empty
  is.zipIdx.forM fun (i, pc) => checkInstr is.length i pc
  handlers.zipIdx.forM fun (h, k) => checkHandler is.length h k
  splits.forM (checkSplit is.length)

/-! ### Cuts -/

/-- The instructions before which a cut is made, in no order. -/
def cuts (is : List Instr) (handlers : List Handler) (splits : List Int) : List Nat :=
  0 :: is.flatMap (fun i => i.targets.map UInt32.toNat) ++
    (is.zipIdx.filter fun (i, _) => i.endsBlock).map (fun (_, pc) => pc + 1) ++
    handlers.flatMap (fun h => [h.start.toNat, h.stop.toNat, h.target.toNat]) ++
    splits.map fun s => (s + 1).toNat

/-- The first instructions of the blocks of a body of `n` instructions, in order. -/
def starts (n : Nat) (cuts : List Nat) : List Nat := (List.range n).filter (· ∈ cuts)

/-- The block of instruction `i`: the last one that does not start after it. -/
def blockIn (starts : List Nat) (i : Nat) : Nat := (starts.filter (· ≤ i)).length - 1

/-! ### Blocks -/

/-- A handler of the table, with its range in blocks. -/
def guard (starts : List Nat) (h : Handler) (index : Nat) : Guard :=
  { cls := h.cls, index, start := h.start.toNat, stop := h.stop.toNat
    first := blockIn starts h.start.toNat
    last := blockIn starts (h.stop.toNat - 1)
    entry := blockIn starts h.target.toNat
    region := h.region, kind := h.kind }

/-- The instructions that control can reach right after instruction `i` at `pc`. -/
def nexts (i : Instr) (pc : Nat) : List Nat :=
  (if i.fallsThrough then [pc + 1] else []) ++ i.targets.map UInt32.toNat

/-- The block of the instructions `start`, …, `stop - 1`. -/
def block (is : List Instr) (starts : List Nat) (guards : List Guard) (id start stop : Nat) :
    Block :=
  { id, start, stop
    succs := match is[stop - 1]? with
      | some i => ((nexts i (stop - 1)).map (blockIn starts)).eraseDups
      | none => []
    excSuccs := ((guards.filter (·.covers start)).map Guard.entry).eraseDups }

/-- The graph of a body that passed the checks. -/
def assemble (is : List Instr) (handlers : List Handler) (splits : List Int) : Graph :=
  let starts := starts is.length (cuts is handlers splits)
  let guards := handlers.zipIdx.map fun (h, k) => guard starts h k
  let stops := starts.tail ++ [is.length]
  { blocks := (starts.zip stops).zipIdx.map fun ((start, stop), id) =>
      block is starts guards id start stop
    guards
    blockOf := (List.range is.length).map (blockIn starts) }

/-- The graph of a body, with additional cuts after the instructions `splits`. -/
def build (function : Text) (is : List Instr) (handlers : List Handler) (splits : List Int) :
    Attempt Graph :=
  match check is handlers splits with
  | .error fault => Attempt.fail (.decode function (some (.ofText fault.message)))
  | .ok _ => .ok (assemble is handlers splits)

/-- The handlers that cover instruction `i`, by their place in the table. -/
def covering (g : Graph) (i : Nat) : List Nat :=
  (g.guards.zipIdx.filter fun (h, _) => h.covers i).map Prod.snd

/-- The number of the block of instruction `i`. -/
def blockNumber (g : Graph) (i : Nat) : Nat := g.blockOf.getD i 0

/-- The block of instruction `i`. -/
def blockAt (g : Graph) (i : Nat) : Option Block := g.blocks[g.blockNumber i]?

end Graph

end Resumable
