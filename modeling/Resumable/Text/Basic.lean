/-!
# Byte strings

Every name, literal and message of this library is a `Text`: a string of bytes. Most texts are
UTF-8, but none has to be, because a string literal may hold any byte and the machine concatenates
strings byte by byte.
-/

namespace Resumable

/-- Raw data. -/
abbrev Bytes := List UInt8

/-- A string of bytes. -/
structure Text where
  bytes : Bytes
deriving DecidableEq, Inhabited, Repr

namespace Text

/-- The UTF-8 form of a string. -/
def ofString (s : String) : Text := ⟨s.toUTF8.data.toList⟩

instance : Coe String Text := ⟨ofString⟩

/-- The text without bytes. -/
def empty : Text := ⟨[]⟩

instance : EmptyCollection Text := ⟨empty⟩

/-- One text after the other. -/
def append (a b : Text) : Text := ⟨a.bytes ++ b.bytes⟩

instance : Append Text := ⟨append⟩

@[simp] theorem bytes_append (a b : Text) : (a ++ b).bytes = a.bytes ++ b.bytes := rfl

@[simp] theorem bytes_empty : (∅ : Text).bytes = [] := rfl

/-- Is there no byte at all? -/
def isEmpty (t : Text) : Bool := t.bytes.isEmpty

/-- The number of bytes. -/
def size (t : Text) : Nat := t.bytes.length

/-- Does `t` begin with `start`? -/
def startsWith (t start : Text) : Bool := start.bytes.isPrefixOf t.bytes

/-- Does `t` stop with `tail`? -/
def endsWith (t tail : Text) : Bool := tail.bytes.isSuffixOf t.bytes

/-- All texts in one, in order. -/
def concat (ts : List Text) : Text := ⟨ts.flatMap bytes⟩

/-- The texts in order with `sep` between neighbours. -/
def join (sep : Text) (ts : List Text) : Text := concat (ts.intersperse sep)

/-- Byte by byte order, a proper start before its extensions. -/
def le (a b : Text) : Bool := go a.bytes b.bytes
where
  go : Bytes → Bytes → Bool
    | [], _ => true
    | _ :: _, [] => false
    | x :: xs, y :: ys => x < y || (x == y && go xs ys)

/-- Does `a` come before `b` in this order, and differ from it? -/
def lt (a b : Text) : Bool := !b.le a

/-- The pieces of `t` between the occurrences of a byte. -/
def splitOn (t : Text) (sep : UInt8) : List Text := (t.bytes.splitOn sep).map Text.mk

/-! ### Numbers -/

/-- Decimal digits, without leading zeros. -/
def ofNat (n : Nat) : Text := ofString (toString n)

/-- Decimal digits after a minus sign for negative numbers. -/
def ofInt (n : Int) : Text := ofString (toString n)

/-- The lower case hexadecimal digit of a number below sixteen. -/
def hexDigit (n : Nat) : UInt8 :=
  if n < 10 then UInt8.ofNat (48 + n) else UInt8.ofNat (87 + n)

/-- The last `width` hexadecimal digits of `n`. -/
def hexPadded (width n : Nat) : Text :=
  ⟨(List.range width).reverse.map fun k => hexDigit (n / Nat.pow 16 k % 16)⟩

/-- Two hexadecimal digits for every byte. -/
def hexOf (data : Bytes) : Text := concat (data.map fun b => hexPadded 2 b.toNat)

end Text

/-- A member of a table that is addressed by a 32-bit index. -/
def item? {α : Type} (table : List α) (i : UInt32) : Option α := table[i.toNat]?

end Resumable
