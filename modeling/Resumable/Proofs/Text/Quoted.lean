import Mathlib.Data.List.Basic
import Mathlib.Tactic.IntervalCases
import Mathlib.Tactic.Ring
import Resumable.Proofs.Text.Utf8
import Resumable.Text.Quoted

/-!
# Quoted texts that are read

Between its quotes, a quoted text is a row of plain characters and escapes, and every one of them
denotes a part of the text: `exists_inside` finds that row, and `unquoteInside_inside` says that it
denotes the whole.
-/

namespace Resumable.Text

open List

variable {cs : List Char} {width n d : Nat} {t : Text}

/-- May a character stand in a literal as it is? -/
def IsPlain (c : Char) : Prop := c ≠ '"' ∧ c ≠ '\\' ∧ c ≠ '\n'

/-- The inside of a literal, and the text that it denotes. -/
inductive Inside : List Char → Text → Prop
  | nil : Inside [] ∅
  | plain {c : Char} {cs : List Char} {t : Text} (hc : IsPlain c) (h : Inside cs t) :
      Inside (c :: cs) (ofChar c ++ t)
  | escape {c : Char} {more cs : List Char} {piece t : Text} (hc : c ≠ '\n')
      (hmore : ∀ d ∈ more, IsPlain d)
      (hpiece : ∀ rest, unescape (c :: (more ++ rest)) = some (piece, rest)) (h : Inside cs t) :
      Inside ('\\' :: c :: (more ++ cs)) (piece ++ t)

theorem unquoteInside_inside (h : Inside cs t) :
    unquoteInside cs = some t := by
  induction h with
  | nil => rw [unquoteInside]
  | @plain c cs t hc _ ih =>
    rw [unquoteInside, ih]
    · rfl
    · exact hc.1
    · exact hc.2.2
    · exact hc.2.1
  | @escape c more cs piece t _ _ hpiece _ ih =>
    rw [unquoteInside]
    split
    next hnone => rw [hpiece] at hnone; cases hnone
    next t' rest hsome =>
      rw [hpiece] at hsome
      cases hsome
      rw [ih]
      rfl

/-! ### Hexadecimal digits -/

/-- The last `width` hexadecimal digits of a number. -/
def hexChars : (width : Nat) → Nat → List Char
  | 0, _ => []
  | width + 1, n => Nat.digitChar (n / 16 ^ width % 16) :: hexChars width n

theorem utf8EncodeChar_hexDigit (h : d < 16) :
    String.utf8EncodeChar d.digitChar = [hexDigit d] := by
  interval_cases d <;> rfl

theorem hexValue_digitChar (h : d < 16) : hexValue d.digitChar = some d := by
  interval_cases d <;> rfl

theorem isPlain_digitChar (h : d < 16) : IsPlain d.digitChar := by
  interval_cases d <;> exact ⟨by decide, by decide, by decide⟩

theorem hexPadded_eq (width n : Nat) : hexPadded width n = ofChars (hexChars width n) := by
  induction width with
  | zero => rfl
  | succ width ih =>
    have hd : n / 16 ^ width % 16 < 16 := Nat.mod_lt _ (by decide)
    refine ext_bytes ?_
    rw [hexChars, ofChars_cons, bytes_append, ← ih, bytes_ofChar, utf8EncodeChar_hexDigit hd]
    simp [hexPadded, range_succ]

theorem length_hexChars (width n : Nat) : (hexChars width n).length = width := by
  induction width with
  | zero => rfl
  | succ width ih => rw [hexChars, length_cons, ih]

theorem isPlain_hexChars : ∀ c ∈ hexChars width n, IsPlain c := by
  induction width with
  | zero => exact fun c hc => nomatch hc
  | succ width ih =>
    rw [hexChars, forall_mem_cons]
    exact ⟨isPlain_digitChar (Nat.mod_lt _ (by decide)), ih⟩

/-- Hexadecimal digits are read back. -/
theorem digitsValue_hexChars (h : n < 16 ^ width) :
    digitsValue 16 hexValue (hexChars width n) = some n := by
  have hfold (width m : Nat) :
      (hexChars width n).foldlM (fun n c => (hexValue c).map (n * 16 + ·)) m =
        some (m * 16 ^ width + n % 16 ^ width) := by
    induction width generalizing m with
    | zero => simp [hexChars, Nat.mod_one]
    | succ width ih =>
      have hd : n / 16 ^ width % 16 < 16 := Nat.mod_lt _ (by decide)
      rw [hexChars, foldlM_cons, hexValue_digitChar hd]
      change (hexChars width n).foldlM _ (m * 16 + n / 16 ^ width % 16) = _
      rw [ih, Nat.mod_pow_succ, Nat.pow_succ]
      congr 1
      ring
  rw [digitsValue, hfold, Nat.zero_mul, Nat.zero_add, Nat.mod_eq_of_lt h]

/-! ### Escapes -/

/-- A number after a letter denotes what its value stands for. -/
theorem number_hexChars {denote : Nat → Option Text} (h : n < 16 ^ width)
    (hn : denote n = some t) (rest : List Char) :
    unescape.number width 16 hexValue denote (hexChars width n ++ rest) = some (t, rest) := by
  have hlen := length_hexChars width n
  rw [unescape.number, if_neg (by rw [length_append]; omega), take_left' hlen,
    drop_left' hlen, digitsValue_hexChars h]
  simp [hn]

/-- A letter and hexadecimal digits. -/
theorem inside_hexChars {letter : Char} {denote : Nat → Option Text}
    {piece t : Text} (hletter : letter ≠ '\n') (hnumber : ∀ rest,
      unescape (letter :: rest) = unescape.number width 16 hexValue denote rest)
    (hwidth : n < 16 ^ width) (hn : denote n = some piece) (h : Inside cs t) :
    Inside ('\\' :: letter :: (hexChars width n ++ cs)) (piece ++ t) :=
  .escape hletter isPlain_hexChars
    (fun rest => by rw [hnumber, number_hexChars hwidth hn]) h

theorem inside_letter {letter : Char} {piece t : Text} (hletter : letter ≠ '\n')
    (hpiece : ∀ rest, unescape (letter :: rest) = some (piece, rest)) (h : Inside cs t) :
    Inside ('\\' :: letter :: cs) (piece ++ t) :=
  have hnone : ∀ c ∈ ([] : List Char), IsPlain c := fun _ hd => nomatch hd
  .escape hletter hnone hpiece h

theorem byteOf_eq {b : UInt8} : byteOf b.toNat = some ⟨[b]⟩ := by
  rw [byteOf, if_pos b.toNat_lt, UInt8.ofNat_toNat]

theorem byteOf_ascii {c : Char} (h : c.toNat < 128) : byteOf c.toNat = some (ofChar c) := by
  rw [byteOf, if_pos (by omega), ofChar_eq]
  refine congrArg some (ext_bytes ?_)
  have hval : c.val.toNat = c.toNat := rfl
  rw [bytes_ofChars, flatMap_singleton, String.utf8EncodeChar, hval]
  exact (if_pos (by omega)).symm

theorem charOf_toNat (c : Char) : charOf c.toNat = some (ofChar c) := by
  rw [charOf, if_pos (show c.toNat.isValidChar from c.valid), Char.ofNat_toNat]

/-- **Every character and every stray byte is written so that it can be read.** -/
theorem inside_escapeRune (r : Rune) (h : Inside cs t) :
    ∃ ds, escapeRune r = ofChars ds ∧ Inside (ds ++ cs) (r.text ++ t) := by
  have hx (n : Nat) : "\\x" ++ hexPadded 2 n = ofChars ('\\' :: 'x' :: hexChars 2 n) := by
    rw [hexPadded_eq, ofChars_cons, ofChars_cons]
    rfl
  have hu (n : Nat) : "\\u" ++ hexPadded 4 n = ofChars ('\\' :: 'u' :: hexChars 4 n) := by
    rw [hexPadded_eq, ofChars_cons, ofChars_cons]
    rfl
  have hU (n : Nat) : "\\U" ++ hexPadded 8 n = ofChars ('\\' :: 'U' :: hexChars 8 n) := by
    rw [hexPadded_eq, ofChars_cons, ofChars_cons]
    rfl
  have hpair (c : Char) : "\\" ++ ofChar c = ofChars ['\\', c] := by
    rw [ofChars_cons, ← ofChar_eq]
    rfl
  cases r with
  | stray b =>
    refine ⟨_, hx b.toNat, ?_⟩
    exact inside_hexChars (by decide) (fun _ => rfl) b.toNat_lt byteOf_eq h
  | char c =>
    simp only [escapeRune, escapeChar, escapeWith, Rune.text]
    split
    next hquote =>
      refine ⟨_, hpair c, ?_⟩
      rw [Bool.or_eq_true, decide_eq_true_eq, decide_eq_true_eq] at hquote
      rcases hquote with rfl | rfl
      · exact inside_letter (by decide) (fun _ => rfl) h
      · exact inside_letter (by decide) (fun _ => rfl) h
    next hquote =>
    split
    next hshown =>
      rw [Bool.or_eq_true, decide_eq_true_eq, decide_eq_true_eq, not_or] at hquote
      have hline : c ≠ '\n' := by
        rintro rfl
        exact absurd hshown (by decide)
      exact ⟨[c], ofChar_eq c, .plain ⟨hquote.1, hquote.2, hline⟩ h⟩
    next hshown =>
    split
    next letter hletter => 
      refine ⟨_, hpair letter, ?_⟩
      have hchar (n : Nat) (hn : c.toNat = n) : c = Char.ofNat n := by
        rw [← hn, Char.ofNat_toNat]
      unfold controlLetter at hletter
      split at hletter <;> cases hletter
      all_goals
        rename_i hn
        rw [hchar _ hn]
        exact inside_letter (by decide) (fun _ => rfl) h
    next hletter =>
    split
    next hlow =>
      rw [Bool.or_eq_true, decide_eq_true_eq, decide_eq_true_eq] at hlow
      refine ⟨_, hx c.toNat, ?_⟩
      exact inside_hexChars (by decide) (fun _ => rfl) (by omega) (byteOf_ascii (by omega)) h
    next hlow =>
    split
    next hmid =>
      refine ⟨_, hu c.toNat, ?_⟩
      exact inside_hexChars (by decide) (fun _ => rfl) hmid (charOf_toNat c) h
    next hmid =>
      refine ⟨_, hU c.toNat, ?_⟩
      have hlt := toNat_char_lt c
      exact inside_hexChars (by decide) (fun _ => rfl) (by omega) (charOf_toNat c) h

/-- A quoted text is the inside of a literal between two quotes. -/
theorem exists_inside (t : Text) :
    ∃ cs, Inside cs t ∧ t.quoted = ofChars ('"' :: (cs ++ ['"'])) := by
  have hrunes (rs : List Rune) : ∃ cs, Inside cs (concat (rs.map Rune.text)) ∧
      concat (rs.map escapeRune) = ofChars cs := by
    induction rs with
    | nil => exact ⟨[], .nil, rfl⟩
    | cons r rs ih =>
      obtain ⟨cs, hcs, htext⟩ := ih
      obtain ⟨ds, hds, hinside⟩ := inside_escapeRune r hcs
      refine ⟨ds ++ cs, hinside, ?_⟩
      rw [map_cons, concat_cons, hds, htext, ofChars_append]
  obtain ⟨cs, hcs, htext⟩ := hrunes t.runes
  rw [concat_runes] at hcs
  refine ⟨cs, hcs, ?_⟩
  rw [quoted, htext, ofChars_cons, ofChars_append]
  rfl

end Resumable.Text
