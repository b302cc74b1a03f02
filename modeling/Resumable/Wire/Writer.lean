import Resumable.Text.Basic

/-!
# Writing bytes

The written form of integers, names and sections. Integers take as few groups as possible.
-/

namespace Resumable.Wire

/-- The groups of an unsigned integer, of which there are at most `groups`. -/
def unsignedGroups : (groups : Nat) → UInt32 → Bytes
  | 0, _ => []
  | groups + 1, v =>
    if v >>> 7 = 0 then [(v &&& 0x7F).toUInt8]
    else ((v &&& 0x7F).toUInt8 ||| 0x80) :: unsignedGroups groups (v >>> 7)

/-- An unsigned 32-bit integer. -/
def u32 (v : UInt32) : Bytes := unsignedGroups 5 v

/-- The groups of a signed integer, of which there are at most `groups`. The last one is the first
after which only copies of its bit 6 are left. -/
def signedGroups : (groups : Nat) → Int64 → Bytes
  | 0, _ => []
  | groups + 1, v =>
    let group := (v &&& 0x7F).toUInt64.toUInt8
    let higher := v >>> 7
    if (higher = 0 && group &&& 0x40 = 0) || (higher = -1 && group &&& 0x40 ≠ 0) then [group]
    else (group ||| 0x80) :: signedGroups groups higher

/-- A signed 64-bit integer. -/
def s64 (v : Int64) : Bytes := signedGroups 10 v

/-- A signed 32-bit integer. -/
def s32 (v : Int32) : Bytes := s64 v.toInt64

/-- The length of a vector. -/
def len (n : Nat) : Bytes := u32 (UInt32.ofNat n)

/-- A name: its size in bytes, then its bytes. -/
def name (t : Text) : Bytes := len t.size ++ t.bytes

/-- Four bytes, the lowest first. -/
def u32le (v : UInt32) : Bytes :=
  [v.toUInt8, (v >>> 8).toUInt8, (v >>> 16).toUInt8, (v >>> 24).toUInt8]

/-- A section: its number, its size and its contents. -/
def block (id : UInt8) (payload : Bytes) : Bytes := id :: len payload.length ++ payload

/-- The length of a list, then its items. -/
def vector {α : Type} (item : α → Bytes) (items : List α) : Bytes :=
  len items.length ++ items.flatMap item

end Resumable.Wire
