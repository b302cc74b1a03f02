import Resumable.Instr.Basic
import Resumable.Error

/-!
# The height of the operand stack

How high the stack of a body can grow. Heights are followed along every way through the code: the
first instruction is entered with an empty stack and a handler with the caught error alone. Two ways
that meet with different heights, a stack that would run empty and code that runs off its end are
faults.
-/

namespace Resumable

/-- Why the heights of a body cannot be computed. -/
inductive HeightFault
  | differs (pc height known : Nat)
  | underflow (pc : Nat)
  | fallsOff (pc : Nat)
deriving DecidableEq, Repr

/-- The text of a fault. -/
def HeightFault.message : HeightFault → Text
  | .differs pc height known =>
    instr pc ++ "stack height " ++ Text.ofNat height ++ " differs from " ++ Text.ofNat known
  | .underflow pc => instr pc ++ "stack underflow"
  | .fallsOff pc => instr pc ++ "execution falls off the end"
where
  instr (pc : Nat) : Text := "instruction " ++ Text.ofNat pc ++ ": "

/-- The heights found so far. -/
structure Heights where
  /-- The height before each instruction that was reached. -/
  before : List (Option Nat)
  /-- Instructions that are reached and not followed yet, the newest first. -/
  pending : List Nat := []
  bound : Nat := 0
deriving DecidableEq, Repr

namespace Heights

/-- A fault of the height computation. -/
def fault {α : Type} (f : HeightFault) : Attempt α := .error (.error (.ofText f.message))

/-- Reaches instruction `pc` with a height. -/
def enter (hs : Heights) (pc height : Nat) : Attempt Heights :=
  match hs.before[pc]? with
  | none => .error .outOfRange
  | some none =>
    .ok { hs with before := hs.before.set pc (some height), pending := pc :: hs.pending }
  | some (some known) =>
    if known = height then .ok hs else fault (.differs pc height known)

/-- Reaches several instructions with the same height, in order. -/
def enterAll (hs : Heights) (pcs : List Nat) (height : Nat) : Attempt Heights :=
  pcs.foldlM (fun hs pc => hs.enter pc height) hs

/-- Follows the instruction at `pc`, which was reached. -/
def follow (u : CodeUnit) (is : List Instr) (hs : Heights) (pc : Nat) : Attempt Heights := do
  let i ← Attempt.ofOption is[pc]?
  let height ← Attempt.ofOption (hs.before[pc]?.join)
  let (pops, pushes) ← Attempt.ofOption (i.stackEffect u)
  if height < pops then fault (.underflow pc)
  else
    let after := height - pops + pushes
    let raised := { hs with bound := max hs.bound after }
    let hs ← raised.enterAll (i.targets.map UInt32.toNat) after
    if i.fallsThrough then
      if is.length ≤ pc + 1 then fault (.fallsOff pc) else hs.enter (pc + 1) after
    else return hs

/-- Follows pending instructions until none is left. Each instruction is pending once at most, so
as many rounds as there are instructions are enough. -/
def settle (u : CodeUnit) (is : List Instr) : (rounds : Nat) → Heights → Attempt Heights
  | 0, hs => .ok hs
  | rounds + 1, hs =>
    match hs.pending with
    | [] => .ok hs
    | pc :: pending => do
      let hs ← follow u is { hs with pending } pc
      settle u is rounds hs

/-- The heights at the entries of a body. -/
def entries (is : List Instr) (handlers : List Handler) : Attempt Heights := do
  let start : Heights :=
    { before := is.map fun _ => none, bound := if handlers.isEmpty then 0 else 1 }
  let hs ← start.enter 0 0
  hs.enterAll (handlers.map (·.target.toNat)) 1

end Heights

/-- The heights of a body. -/
def CodeUnit.heights (u : CodeUnit) (is : List Instr) (handlers : List Handler) :
    Attempt Heights := do
  let hs ← Heights.entries is handlers
  hs.settle u is is.length

/-- The highest stack that running a body can lead to. -/
def CodeUnit.stackBound (u : CodeUnit) (is : List Instr) (handlers : List Handler) :
    Attempt UInt32 := do
  let hs ← u.heights is handlers
  return UInt32.ofNat hs.bound

end Resumable
