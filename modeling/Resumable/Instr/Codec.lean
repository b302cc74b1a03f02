import Resumable.Instr.Basic
import Resumable.Wire.Reader
import Resumable.Wire.Writer

/-!
# Instructions as bytes

The opcode of an instruction, then its operands. The form of the operands depends on the opcode
alone, so a sequence of instructions needs no separators.
-/

namespace Resumable

open Wire

/-- Why code bytes are no instructions. -/
inductive CodeFault
  | wire (fault : Fault)
  | unknownOpcode (code : UInt8) (offset : Nat)
deriving DecidableEq, Repr

/-- The text of a fault. -/
def CodeFault.message : CodeFault → Text
  | .wire fault => fault.message
  | .unknownOpcode code offset =>
    "unknown opcode 0x" ++ Text.hexPadded 2 code.toNat ++ " at offset " ++ Text.ofNat offset

instance : MonadLift (Reader Fault) (Reader CodeFault) := ⟨ExceptT.adapt CodeFault.wire⟩

namespace Instr

/-- The bytes of an instruction. -/
def encode (i : Instr) : Bytes := i.opcode.code :: operands i
where
  operands : Instr → Bytes
    | iconst v => s64 v
    | sconst n | load n | store n | goto n | branch _ n | invoke n | checkcast n | instanceof n
    | newrec n => u32 n
    | switch low ts d => s32 low ++ vector u32 ts ++ u32 d
    | recget l f => u32 l ++ u32 f
    | _ => []

/-- The operands that belong to an opcode. -/
def readOperands : Opcode → Reader Fault Instr
  | .nop => return nop
  | .iconst => return iconst (← Reader.s64)
  | .sconst => return sconst (← Reader.u32)
  | .null => return null
  | .load => return load (← Reader.u32)
  | .store => return store (← Reader.u32)
  | .pop => return pop
  | .dup => return dup
  | .swap => return swap
  | .add => return arith .add
  | .sub => return arith .sub
  | .mul => return arith .mul
  | .cmp => return arith .cmp
  | .goto => return goto (← Reader.u32)
  | .ifzero => return branch .zero (← Reader.u32)
  | .ifnonzero => return branch .nonzero (← Reader.u32)
  | .iflt => return branch .less (← Reader.u32)
  | .ifnull => return branch .null (← Reader.u32)
  | .ifnonnull => return branch .nonnull (← Reader.u32)
  | .switch => do
    let low ← Reader.s32
    let count ← Reader.len
    let targets ← Reader.times Reader.u32 count
    return switch low targets (← Reader.u32)
  | .invoke => return invoke (← Reader.u32)
  | .checkcast => return checkcast (← Reader.u32)
  | .instanceof => return instanceof (← Reader.u32)
  | .throw => return raise
  | .return => return ret
  | .retval => return retval
  | .newrec => return newrec (← Reader.u32)
  | .recget => do
    let layout ← Reader.u32
    return recget layout (← Reader.u32)

/-- One instruction. -/
def read : Reader CodeFault Instr := do
  let b ← Reader.byte
  match Opcode.ofCode? b with
  | some op => readOperands op
  | none => throw (.unknownOpcode b ((← get).position - 1))

/-- Instructions up to the end of the input, at most `most` of them. -/
def readAll : (most : Nat) → Reader CodeFault (List Instr)
  | 0 => return []
  | most + 1 => do
    if (← get).rest.isEmpty then return []
    else
      let i ← read
      return i :: (← readAll most)

/-- The instructions of a body. Each takes at least a byte, so there are at most as many of them as
there are bytes. -/
def decodeAll (code : Bytes) : Except CodeFault (List Instr) :=
  ((readAll code.length).run code).1

/-- The bytes of a body. -/
def encodeAll (is : List Instr) : Bytes := is.flatMap encode

end Instr

end Resumable
