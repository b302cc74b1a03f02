import Resumable.Text.Quoted

/-!
# Written integers

Integers are written in decimal, or in binary, octal or hexadecimal after `0b`, `0o` or `0x`; a
leading zero alone announces octal digits. The digits are read from left to right, and the first
one that is no digit or that takes the value out of range decides which fault is reported.
-/

namespace Resumable

/-- Why a text is no integer of the wanted width. -/
inductive NumeralFault
  | invalid
  | outOfRange
deriving DecidableEq, Repr

/-- The end of every message about a numeral. -/
def NumeralFault.message : NumeralFault → Text
  | .invalid => "invalid syntax"
  | .outOfRange => "value out of range"

namespace Numeral

/-- The value of a digit in any base up to 36. -/
def digitValue (b : UInt8) : Option Nat :=
  if 48 ≤ b && b ≤ 57 then some (b.toNat - 48)
  else if 97 ≤ b && b ≤ 122 then some (b.toNat - 87)
  else if 65 ≤ b && b ≤ 90 then some (b.toNat - 55)
  else none

/-- Adds digits to `n`, which may not pass `most`. -/
def digits (base most : Nat) : Nat → Bytes → Except NumeralFault Nat
  | n, [] => .ok n
  | n, b :: rest =>
    match digitValue b with
    | none => .error .invalid
    | some d =>
      if base ≤ d then .error .invalid
      else if most < n * base + d then .error .outOfRange
      else digits base most (n * base + d) rest

/-- The base that the first bytes announce, and the digits after the announcement. -/
def announced : Bytes → Nat × Bytes
  | 48 :: 98 :: d :: rest | 48 :: 66 :: d :: rest => (2, d :: rest)
  | 48 :: 111 :: d :: rest | 48 :: 79 :: d :: rest => (8, d :: rest)
  | 48 :: 120 :: d :: rest | 48 :: 88 :: d :: rest => (16, d :: rest)
  | 48 :: rest => (8, rest)
  | ds => (10, ds)

/-- A natural number of `bits` bits in the base it announces. -/
def nat (bits : Nat) (t : Text) : Except NumeralFault Nat :=
  if t.isEmpty then .error .invalid
  else
    let (base, ds) := announced t.bytes
    digits base (Nat.pow 2 bits - 1) 0 ds

/-- A natural number of `bits` bits in decimal. -/
def decimalNat (bits : Nat) (t : Text) : Except NumeralFault Nat :=
  if t.isEmpty then .error .invalid else digits 10 (Nat.pow 2 bits - 1) 0 t.bytes

/-- The integer with a sign and an absolute value, if `bits` bits hold it. -/
def withSign (bits : Nat) (negative : Bool) (n : Nat) : Except NumeralFault Int :=
  if negative then
    if Nat.pow 2 (bits - 1) < n then .error .outOfRange else .ok (-n)
  else
    if Nat.pow 2 (bits - 1) ≤ n then .error .outOfRange else .ok n

/-- A signed integer of `bits` bits, whose absolute value is read by `unsigned`. -/
def signed (unsigned : Nat → Text → Except NumeralFault Nat) (bits : Nat) (t : Text) :
    Except NumeralFault Int :=
  match t.bytes with
  | 45 :: rest => unsigned bits ⟨rest⟩ >>= withSign bits true
  | 43 :: rest => unsigned bits ⟨rest⟩ >>= withSign bits false
  | _ => unsigned bits t >>= withSign bits false

/-- A signed integer of `bits` bits in the base it announces. -/
def int (bits : Nat) (t : Text) : Except NumeralFault Int := signed nat bits t

/-- A signed integer of `bits` bits in decimal. -/
def decimalInt (bits : Nat) (t : Text) : Except NumeralFault Int := signed decimalNat bits t

end Numeral

end Resumable
