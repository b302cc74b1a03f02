import Resumable.CodeUnit.Basic
import Resumable.Instr.Opcode

/-!
# Instructions

An instruction with its operands. Branch targets are instruction indices, all other operands are
indices into the tables of the unit or numbers of locals.
-/

namespace Resumable

/-- Operations on two integers. -/
inductive Arith
  | add | sub | mul
  /-- Compares: -1, 0 or 1. -/
  | cmp
deriving DecidableEq, Repr

/-- What a conditional branch looks at. -/
inductive Test
  | zero | nonzero
  /-- Is the lower of two integers less than the upper one? -/
  | less
  | null | nonnull
deriving DecidableEq, Repr

/-- An instruction. -/
inductive Instr
  | nop
  | iconst (value : Int64)
  | sconst (index : UInt32)
  | null
  | load (slot : UInt32)
  | store (slot : UInt32)
  | pop
  | dup
  | swap
  | arith (op : Arith)
  | goto (target : UInt32)
  | branch (test : Test) (target : UInt32)
  /-- Takes `targets[k]` for the integer `low + k`, and `otherwise` for every other integer. -/
  | switch (low : Int32) (targets : List UInt32) (otherwise : UInt32)
  | invoke (symbol : UInt32)
  | checkcast (cls : UInt32)
  | instanceof (cls : UInt32)
  | raise
  | ret
  | retval
  | newrec (layout : UInt32)
  | recget (layout : UInt32) (field : UInt32)
deriving DecidableEq, Repr, Inhabited

/-- The opcode of an operation. -/
def Arith.opcode : Arith → Opcode
  | add => .add
  | sub => .sub
  | mul => .mul
  | cmp => .cmp

/-- The opcode of a conditional branch. -/
def Test.opcode : Test → Opcode
  | zero => .ifzero
  | nonzero => .ifnonzero
  | less => .iflt
  | null => .ifnull
  | nonnull => .ifnonnull

namespace Instr

/-- The opcode of an instruction. -/
def opcode : Instr → Opcode
  | nop => .nop
  | iconst _ => .iconst
  | sconst _ => .sconst
  | null => .null
  | load _ => .load
  | store _ => .store
  | pop => .pop
  | dup => .dup
  | swap => .swap
  | arith op => op.opcode
  | goto _ => .goto
  | branch test _ => test.opcode
  | switch _ _ _ => .switch
  | invoke _ => .invoke
  | checkcast _ => .checkcast
  | instanceof _ => .instanceof
  | raise => .throw
  | ret => .return
  | retval => .retval
  | newrec _ => .newrec
  | recget _ _ => .recget

/-- The branch targets, the default of a switch last. -/
def targets : Instr → List UInt32
  | goto t | branch _ t => [t]
  | switch _ ts d => ts ++ [d]
  | _ => []

/-- Does the instruction name a place to go to? -/
def isBranch : Instr → Bool
  | goto _ | branch _ _ | switch _ _ _ => true
  | _ => false

/-- Can execution go on with the next instruction? -/
def fallsThrough : Instr → Bool
  | goto _ | switch _ _ _ | raise | ret | retval => false
  | _ => true

/-- Does a basic block stop here? -/
def endsBlock (i : Instr) : Bool := i.isBranch || !i.fallsThrough

/-- The instruction with every branch target moved by `f`. -/
def retarget (f : UInt32 → UInt32) : Instr → Instr
  | goto t => goto (f t)
  | branch test t => branch test (f t)
  | switch low ts d => switch low (ts.map f) (f d)
  | i => i

/-- The local that an instruction reads or writes. -/
def slot? : Instr → Option UInt32
  | load n | store n => some n
  | _ => none

/-- A short form with bare indices. -/
def text (i : Instr) : Text :=
  match i with
  | iconst v => i.opcode.name ++ " " ++ Text.ofInt v.toInt
  | sconst n | checkcast n | instanceof n => i.opcode.name ++ " #" ++ index n
  | load n | store n => i.opcode.name ++ " " ++ index n
  | goto t | branch _ t => i.opcode.name ++ " @" ++ index t
  | switch low ts d =>
    i.opcode.name ++ " " ++ Text.ofInt low.toInt ++ " [" ++ Text.join " " (ts.map index) ++ "] @" ++
      index d
  | invoke n => i.opcode.name ++ " sym#" ++ index n
  | newrec n => i.opcode.name ++ " rec#" ++ index n
  | recget n f => i.opcode.name ++ " rec#" ++ index n ++ "." ++ index f
  | _ => i.opcode.name
where
  index (n : UInt32) : Text := Text.ofNat n.toNat

/-- How many values an instruction takes from the stack and how many it puts there; nothing if it
names a symbol or a layout that the unit does not have. -/
def stackEffect (u : CodeUnit) : Instr → Option (Nat × Nat)
  | iconst _ | sconst _ | null | load _ => some (0, 1)
  | store _ | pop | branch .zero _ | branch .nonzero _ | branch .null _ | branch .nonnull _
  | switch _ _ _ | raise | retval => some (1, 0)
  | dup => some (1, 2)
  | swap => some (2, 2)
  | arith _ => some (2, 1)
  | branch .less _ => some (2, 0)
  | checkcast _ | instanceof _ | recget _ _ => some (1, 1)
  | invoke n => (item? u.symbols n).map fun s =>
    (s.params.length, if s.result = .void then 0 else 1)
  | newrec n => (item? u.records n).map fun l => (l.fields.length, 1)
  | nop | goto _ | ret => some (0, 0)

end Instr

end Resumable
