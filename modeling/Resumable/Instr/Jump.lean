import Resumable.Instr.Codec

/-!
# Jumps under any opcode

Code that is put together by hand may give a branch target to an opcode that takes none. Such a jump
can be shown and written like any other, but its bytes need not read back as one instruction.
-/

namespace Resumable

/-- An opcode with a branch target. -/
structure Jump where
  opcode : Opcode
  target : UInt32
deriving DecidableEq, Repr

namespace Jump

/-- A short form with the bare target. -/
def text (j : Jump) : Text := j.opcode.name ++ " @" ++ Text.ofNat j.target.toNat

/-- The bytes of a jump. -/
def encode (j : Jump) : Bytes := j.opcode.code :: Wire.u32 j.target

/-- The text and the bytes of an instruction. A `goto` may stand for a jump under another opcode. -/
def written (i : Instr) (opcode : Option Opcode) : Text × Bytes :=
  match opcode, i with
  | some opcode, .goto target => ((Jump.mk opcode target).text, (Jump.mk opcode target).encode)
  | _, i => (i.text, i.encode)

end Jump

end Resumable
