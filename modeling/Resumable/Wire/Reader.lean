import Resumable.Text.Utf8

/-!
# Reading bytes

A reader walks over a byte sequence and counts the bytes it has taken, so that a fault can say where
it happened. What was taken before a fault stays taken.

Integers are in LEB128: groups of seven bits, the lowest first, with the high bit set on every group
but the last. Five groups hold 32 bits and ten hold 64.
-/

namespace Resumable.Wire

/-- A place in a byte sequence: what is left, and how much was taken. -/
structure Cursor where
  rest : Bytes
  position : Nat := 0
deriving DecidableEq, Repr

/-- Why a primitive could not be read. -/
inductive Fault
  | endOfInput
  | overflow (position : Nat)
  | tooLong (position : Nat)
  | invalidUtf8 (position : Nat)
deriving DecidableEq, Repr

/-- The text of a fault. -/
def Fault.message : Fault → Text
  | .endOfInput => "EOF"
  | .overflow position => placed position "leb128: overflow"
  | .tooLong position => placed position "length prefix exceeds remaining input"
  | .invalidUtf8 position => placed position "invalid UTF-8 in name"
where
  placed (position : Nat) (problem : Text) : Text :=
    "at position " ++ Text.ofNat position ++ ": " ++ problem

/-- A reader of an `α`, which may fault with an `ε`. -/
abbrev Reader (ε : Type) := ExceptT ε (StateM Cursor)

namespace Reader

/-- Starts at the first byte of `data`. -/
def run {ε α : Type} (r : Reader ε α) (data : Bytes) : Except ε α × Cursor :=
  ExceptT.run r ⟨data, 0⟩

/-- Faults at the current position. -/
def faultHere {α : Type} (fault : Nat → Fault) : Reader Fault α := do
  throw (fault (← get).position)

/-- The next byte. -/
def byte : Reader Fault UInt8 := do
  match (← get).rest with
  | [] => throw .endOfInput
  | b :: rest =>
    modify fun c => ⟨rest, c.position + 1⟩
    return b

/-- The next `n` bytes. -/
def bytes (n : Int) : Reader Fault Bytes := do
  let c ← get
  if n < 0 || c.rest.length < n then faultHere .tooLong
  else
    set (Cursor.mk (c.rest.drop n.toNat) (c.position + n.toNat))
    return c.rest.take n.toNat

/-- All bytes that are left. -/
def remaining : Reader Fault Bytes := do
  bytes (← get).rest.length

/-- Does the high bit announce another group? -/
def continues (b : UInt8) : Bool := b &&& 0x80 != 0

/-- At most `groups` further groups of an unsigned integer, of which `acc` holds the lower bits. -/
def unsignedGroups : (groups : Nat) → (shift : UInt32) → (acc : UInt32) → Reader Fault UInt32
  | 0, _, _ => faultHere .overflow
  | groups + 1, shift, acc => do
    let b ← byte
    let acc := acc ||| ((b &&& 0x7F).toUInt32 <<< shift)
    if continues b then unsignedGroups groups (shift + 7) acc else return acc

/-- An unsigned 32-bit integer. Bits of the fifth group past the 32nd are dropped. -/
def u32 : Reader Fault UInt32 := unsignedGroups 5 0 0

/-- At most `groups` further groups of a signed integer, of which `acc` holds the lower bits. Bit 6
of the last group is the sign, unless the groups fill all 64 bits. -/
def signedGroups : (groups : Nat) → (shift : UInt64) → (acc : UInt64) → Reader Fault Int64
  | 0, _, _ => faultHere .overflow
  | groups + 1, shift, acc => do
    let b ← byte
    let acc := acc ||| ((b &&& 0x7F).toUInt64 <<< shift)
    if continues b then signedGroups groups (shift + 7) acc
    else if shift + 7 < 64 && b &&& 0x40 != 0 then
      return (acc ||| (0xFFFFFFFFFFFFFFFF <<< (shift + 7))).toInt64
    else return acc.toInt64

/-- A signed 64-bit integer. -/
def s64 : Reader Fault Int64 := signedGroups 10 0 0

/-- A signed 32-bit integer. -/
def s32 : Reader Fault Int32 := do
  let v ← s64
  if v < -2147483648 || 2147483647 < v then faultHere .overflow
  else return v.toInt32

/-- The length of a vector. Every element takes at least one byte, so a length past the end of the
input is a fault. -/
def len : Reader Fault Nat := do
  let n ← u32
  if (← get).rest.length < n.toNat then faultHere .tooLong
  else return n.toNat

/-- A name: its size in bytes, then its bytes, which are UTF-8. -/
def name : Reader Fault Text := do
  let size ← u32
  let t := Text.mk (← bytes size.toNat)
  if t.isUtf8 then return t else faultHere .invalidUtf8

/-- Four bytes, the lowest first. -/
def u32le : Reader Fault UInt32 := do
  let bs ← bytes 4
  return bs.foldr (fun b n => n <<< 8 ||| b.toUInt32) 0

/-- The same item `n` times. -/
def times {ε α : Type} (item : Reader ε α) : Nat → Reader ε (List α)
  | 0 => return []
  | n + 1 => do
    let a ← item
    return a :: (← times item n)

end Reader

end Resumable.Wire
