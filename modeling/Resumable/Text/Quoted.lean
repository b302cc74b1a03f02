import Resumable.Text.Utf8
import Resumable.Text.Category.Printable

/-!
# Quoted texts

A text in double quotes, as listings and messages show it. Printable characters stand for
themselves; a quote and a backslash follow a backslash; everything else is written with the escapes
that `unquoteInside` reads back.
-/

namespace Resumable

/-- The letter that follows the backslash in a named escape. -/
def controlLetter (n : Nat) : Option Char :=
  match n with
  | 7 => some 'a'
  | 8 => some 'b'
  | 9 => some 't'
  | 10 => some 'n'
  | 11 => some 'v'
  | 12 => some 'f'
  | 13 => some 'r'
  | _ => none

namespace Text

/-- A character between two `quote` signs, where some characters can be shown as they are. -/
def escapeWith (shown : Char → Bool) (quote c : Char) : Text :=
  if c = quote || c = '\\' then "\\" ++ ofChar c
  else if shown c then ofChar c
  else
    match controlLetter c.toNat with
    | some letter => "\\" ++ ofChar letter
    | none =>
      if c.toNat < 0x20 || c.toNat = 0x7F then "\\x" ++ hexPadded 2 c.toNat
      else if c.toNat < 0x10000 then "\\u" ++ hexPadded 4 c.toNat
      else "\\U" ++ hexPadded 8 c.toNat

/-- A character between two `quote` signs. -/
def escapeChar (quote c : Char) : Text := escapeWith Category.isPrintable quote c

/-- A character or stray byte of a text between double quotes. -/
def escapeRune : Rune → Text
  | .char c => escapeChar '"' c
  | .stray b => "\\x" ++ hexPadded 2 b.toNat

/-- The text in double quotes. -/
def quoted (t : Text) : Text := "\"" ++ concat (t.runes.map escapeRune) ++ "\""

/-- One character in single quotes. -/
def quotedChar (c : Char) : Text := "'" ++ escapeChar '\'' c ++ "'"

/-! ### ASCII only -/

/-- Is a character a printable one of ASCII? -/
def isPrintableAscii (c : Char) : Bool := c.toNat < 0x80 && Category.isPrintable c

/-- The text in double quotes, in ASCII. -/
def quotedAscii (t : Text) : Text :=
  "\"" ++ concat (t.runes.map fun
    | .char c => escapeWith isPrintableAscii '"' c
    | .stray b => escapeRune (.stray b)) ++ "\""

/-- One character in single quotes, in ASCII. -/
def quotedCharAscii (c : Char) : Text := "'" ++ escapeWith isPrintableAscii '\'' c ++ "'"

/-- Can the text stand between two backquotes, where nothing is escaped? -/
def isRaw (t : Text) : Bool := t.runes.all fun
  | .char c =>
    c.toNat ≠ 0xFEFF && c.toNat ≠ 0x60 && c.toNat ≠ 0x7F && (0x20 ≤ c.toNat || c = '\t')
  | .stray _ => false

/-! ### Reading a literal -/

/-- The value of a hexadecimal digit. -/
def hexValue (c : Char) : Option Nat :=
  if '0' ≤ c && c ≤ '9' then some (c.toNat - 48)
  else if 'a' ≤ c && c ≤ 'f' then some (c.toNat - 87)
  else if 'A' ≤ c && c ≤ 'F' then some (c.toNat - 55)
  else none

/-- The value of an octal digit. -/
def octalValue (c : Char) : Option Nat :=
  if '0' ≤ c && c ≤ '7' then some (c.toNat - 48) else none

/-- The number that `cs` spells in a base, if every character is a digit. -/
def digitsValue (base : Nat) (value : Char → Option Nat) (cs : List Char) : Option Nat :=
  cs.foldlM (fun n c => (value c).map (n * base + ·)) 0

/-- A byte given by its number, if it is one. -/
def byteOf (n : Nat) : Option Text :=
  if n < 256 then some ⟨[UInt8.ofNat n]⟩ else none

/-- A character given by its code, if it is one. -/
def charOf (n : Nat) : Option Text :=
  if n.isValidChar then some (ofChar (Char.ofNat n)) else none

/-- What the characters after a backslash denote, and what follows the escape. -/
def unescape : List Char → Option (Text × List Char)
  | [] => none
  | 'a' :: rest => some (⟨[7]⟩, rest)
  | 'b' :: rest => some (⟨[8]⟩, rest)
  | 't' :: rest => some (⟨[9]⟩, rest)
  | 'n' :: rest => some (⟨[10]⟩, rest)
  | 'v' :: rest => some (⟨[11]⟩, rest)
  | 'f' :: rest => some (⟨[12]⟩, rest)
  | 'r' :: rest => some (⟨[13]⟩, rest)
  | '\\' :: rest => some ("\\", rest)
  | '"' :: rest => some ("\"", rest)
  | 'x' :: rest => number 2 16 hexValue byteOf rest
  | 'u' :: rest => number 4 16 hexValue charOf rest
  | 'U' :: rest => number 8 16 hexValue charOf rest
  | c :: rest => number 3 8 octalValue byteOf (c :: rest)
where
  number (count base : Nat) (value : Char → Option Nat) (denote : Nat → Option Text)
      (cs : List Char) : Option (Text × List Char) :=
    if cs.length < count then none
    else do
      let n ← digitsValue base value (cs.take count)
      let t ← denote n
      some (t, cs.drop count)

/-- An escape takes at least one character. -/
theorem unescape_length {cs rest : List Char} {t : Text} (h : unescape cs = some (t, rest)) :
    rest.length < cs.length := by
  have number_length : ∀ (count base : Nat) (value : Char → Option Nat)
      (denote : Nat → Option Text) (cs : List Char), 0 < count →
      unescape.number count base value denote cs = some (t, rest) → rest.length < cs.length := by
    intro count base value denote cs hc hn
    unfold unescape.number at hn
    split at hn
    · cases hn
    · simp only [Option.bind_eq_bind, Option.bind_eq_some_iff, Option.some.injEq,
        Prod.mk.injEq] at hn
      obtain ⟨n, -, t', -, -, rfl⟩ := hn
      simp only [List.length_drop]
      omega
  unfold unescape at h
  split at h
  case h_1 => cases h
  case h_11 | h_12 | h_13 =>
    exact Nat.lt_succ_of_lt (number_length _ _ _ _ _ (by decide) h)
  case h_14 => exact number_length _ _ _ _ _ (by decide) h
  all_goals
    simp only [Option.some.injEq, Prod.mk.injEq] at h
    obtain ⟨-, rfl⟩ := h
    simp

/-- The text that the inside of a literal denotes. -/
def unquoteInside (cs : List Char) : Option Text :=
  match cs with
  | [] => some ∅
  | '"' :: _ => none
  | '\n' :: _ => none
  | '\\' :: rest =>
    match _h : unescape rest with
    | none => none
    | some (t, rest') => (unquoteInside rest').map (t ++ ·)
  | c :: rest => (unquoteInside rest).map (ofChar c ++ ·)
termination_by cs.length
decreasing_by
  · have := unescape_length _h
    simp only [List.length_cons]
    omega
  · simp

end Text

end Resumable
