import Resumable.Text.Basic

/-!
# Opcodes

Every instruction starts with a byte that says what it does, and has a name in assembly text.
-/

namespace Resumable

/-- What an instruction does, without its operands. -/
inductive Opcode
  | nop | iconst | sconst | null
  | load | store
  | pop | dup | swap
  | add | sub | mul | cmp
  | goto | ifzero | ifnonzero | iflt | ifnull | ifnonnull | switch
  | invoke | checkcast | instanceof
  | throw | «return» | retval
  | newrec | recget
deriving DecidableEq, Repr

namespace Opcode

/-- All opcodes by increasing code. -/
def all : List Opcode :=
  [nop, iconst, sconst, null, load, store, pop, dup, swap, add, sub, mul, cmp, goto, ifzero,
   ifnonzero, iflt, ifnull, ifnonnull, switch, invoke, checkcast, instanceof, throw, «return»,
   retval, newrec, recget]

/-- The first byte of an instruction. -/
def code : Opcode → UInt8
  | nop => 0x00
  | iconst => 0x01
  | sconst => 0x02
  | null => 0x03
  | load => 0x10
  | store => 0x11
  | pop => 0x18
  | dup => 0x19
  | swap => 0x1A
  | add => 0x20
  | sub => 0x21
  | mul => 0x22
  | cmp => 0x23
  | goto => 0x30
  | ifzero => 0x31
  | ifnonzero => 0x32
  | iflt => 0x33
  | ifnull => 0x34
  | ifnonnull => 0x35
  | switch => 0x36
  | invoke => 0x40
  | checkcast => 0x42
  | instanceof => 0x43
  | throw => 0x48
  | «return» => 0x50
  | retval => 0x51
  | newrec => 0x60
  | recget => 0x61

/-- The name in assembly text. -/
def name : Opcode → Text
  | nop => "nop"
  | iconst => "iconst"
  | sconst => "sconst"
  | null => "null"
  | load => "load"
  | store => "store"
  | pop => "pop"
  | dup => "dup"
  | swap => "swap"
  | add => "add"
  | sub => "sub"
  | mul => "mul"
  | cmp => "cmp"
  | goto => "goto"
  | ifzero => "ifzero"
  | ifnonzero => "ifnonzero"
  | iflt => "iflt"
  | ifnull => "ifnull"
  | ifnonnull => "ifnonnull"
  | switch => "switch"
  | invoke => "invoke"
  | checkcast => "checkcast"
  | instanceof => "instanceof"
  | throw => "throw"
  | «return» => "return"
  | retval => "retval"
  | newrec => "newrec"
  | recget => "recget"

/-- The opcode with a code. -/
def ofCode? (b : UInt8) : Option Opcode := all.find? (·.code = b)

/-- The opcode with a name. -/
def ofName? (t : Text) : Option Opcode := all.find? (·.name = t)

end Opcode

end Resumable
