import Resumable.Text.Basic

/-!
# UTF-8

A text is read as a sequence of characters. Bytes that belong to no well-formed character stand for
themselves, one at a time, so nothing of the text is lost.
-/

namespace Resumable

/-- What a text is made of: characters, and stray bytes between them. -/
inductive Rune
  | char (c : Char)
  | stray (b : UInt8)
deriving DecidableEq, Repr

namespace Text

/-- Is `b` a continuation byte, `10xxxxxx`? -/
def isContinuation (b : UInt8) : Bool := 0x80 ≤ b && b ≤ 0xBF

/-- The payload of a continuation byte. -/
def payload (b : UInt8) : Nat := b.toNat % 64

/-- The character with code `n`, if `n` is in the range that `least` opens for its width: longer
forms of smaller codes, surrogates and codes past the last plane are not well formed. -/
def scalar (least n : Nat) : Option Char :=
  if least ≤ n ∧ n.isValidChar then some (Char.ofNat n) else none

/-- The character at the front of the bytes and the number of bytes it takes. -/
def frontChar : Bytes → Option (Char × Nat)
  | [] => none
  | a :: rest =>
    if a < 0x80 then some (Char.ofNat a.toNat, 1)
    else if a < 0xC0 then none
    else if a < 0xE0 then
      match rest with
      | b :: _ =>
        if isContinuation b then
          (scalar 0x80 (a.toNat % 32 * 64 + payload b)).map (·, 2)
        else none
      | _ => none
    else if a < 0xF0 then
      match rest with
      | b :: c :: _ =>
        if isContinuation b && isContinuation c then
          (scalar 0x800 (a.toNat % 16 * 4096 + payload b * 64 + payload c)).map (·, 3)
        else none
      | _ => none
    else if a < 0xF8 then
      match rest with
      | b :: c :: d :: _ =>
        if isContinuation b && isContinuation c && isContinuation d then
          let n := a.toNat % 8 * 262144 + payload b * 4096 + payload c * 64 + payload d
          (scalar 0x10000 n).map (·, 4)
        else none
      | _ => none
    else none

/-- Characters and stray bytes in order. -/
def runesOf : Bytes → List Rune
  | [] => []
  | a :: rest =>
    match frontChar (a :: rest) with
    | some (c, width) => .char c :: runesOf (rest.drop (width - 1))
    | none => .stray a :: runesOf rest
termination_by bs => bs.length
decreasing_by all_goals simp only [List.length_cons, List.length_drop]; omega

/-- Characters and stray bytes of a text, in order. -/
def runes (t : Text) : List Rune := runesOf t.bytes

/-- Is every byte part of a well-formed character? -/
def isUtf8 (t : Text) : Bool := t.runes.all fun
  | .char _ => true
  | .stray _ => false

/-- The UTF-8 form of one character. -/
def ofChar (c : Char) : Text := ofString (String.singleton c)

/-- The UTF-8 form of a sequence of characters. -/
def ofChars (cs : List Char) : Text := ofString (String.ofList cs)

/-- The characters of a text, with U+FFFD for each stray byte. -/
def toChars (t : Text) : List Char := t.runes.map fun
  | .char c => c
  | .stray _ => Char.ofNat 0xFFFD

/-- A readable string, with U+FFFD for each stray byte. -/
def toString (t : Text) : String := String.ofList t.toChars

end Text

end Resumable
