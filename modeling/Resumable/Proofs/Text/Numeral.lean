import Mathlib.Data.List.Basic
import Mathlib.Tactic.IntervalCases
import Resumable.Proofs.Attempt
import Resumable.Proofs.Text.Utf8
import Resumable.Text.Numeral

/-!
# Numbers that are written and read

A number that is written in decimal is read back, since a leading zero, which would announce
another base, is written for zero alone.
-/

namespace Resumable

open List

namespace Text

theorem ofNat_eq_ofChars (n : Nat) : ofNat n = ofChars (Nat.toDigits 10 n) := by
  rw [ofNat, Nat.toString_eq_ofList_toDigits, ofChars]

theorem bytes_digitChar {d : Nat} (h : d < 10) :
    String.utf8EncodeChar d.digitChar = [UInt8.ofNat (48 + d)] := by
  interval_cases d <;> rfl

/-- The last digit stands at the end. -/
theorem bytes_ofNat (n : Nat) :
    (ofNat n).bytes = (if n < 10 then [] else (ofNat (n / 10)).bytes) ++
      [UInt8.ofNat (48 + n % 10)] := by
  have hlast : n % 10 < 10 := Nat.mod_lt n (by decide)
  rw [ofNat_eq_ofChars, bytes_ofChars]
  split
  next h =>
    rw [Nat.toDigits_of_lt_base h, flatMap_singleton, bytes_digitChar h,
      Nat.mod_eq_of_lt h, nil_append]
  next h =>
    rw [Nat.toDigits_of_base_le (by decide) (Nat.le_of_not_lt h), flatMap_append,
      flatMap_singleton, bytes_digitChar hlast, ofNat_eq_ofChars, bytes_ofChars]

theorem ofInt_ofNat (n : Nat) : ofInt (.ofNat n) = ofNat n := rfl

theorem ofInt_negSucc (n : Nat) : ofInt (.negSucc n) = "-" ++ ofNat (n + 1) := by
  have hrepr : Int.repr (.negSucc n) = "-" ++ Nat.repr (n + 1) := rfl
  rw [ofInt, Int.toString_eq_repr, hrepr, ofString_append]
  rfl

theorem ofNat_injective {m n : Nat} (h : ofNat m = ofNat n) : m = n := by
  rw [ofNat_eq_ofChars, ofNat_eq_ofChars] at h
  rw [← Nat.ofDigitChars_ten_toDigits (n := m), ofChars_injective h, Nat.ofDigitChars_ten_toDigits]

/-- A number starts with a digit, which is zero for zero alone. -/
theorem head_ofNat (n : Nat) : ∃ d rest, (ofNat n).bytes = UInt8.ofNat (48 + d) :: rest ∧ d < 10 ∧
    (d = 0 → n = 0 ∧ rest = []) := by
  induction n using Nat.strongRecOn with
  | ind n ih =>
    rw [bytes_ofNat]
    split
    next h => exact ⟨n % 10, [], rfl, by omega, fun _ => ⟨by omega, rfl⟩⟩
    next h =>
      obtain ⟨d, rest, hbytes, hd, hzero⟩ := ih (n / 10) (by omega)
      rw [hbytes]
      exact ⟨d, _, rfl, hd, fun h0 => by have := (hzero h0).1; omega⟩

end Text

namespace Numeral

theorem digits_append (base most n : Nat) (xs ys : Bytes) :
    digits base most n (xs ++ ys) = digits base most n xs >>= fun m => digits base most m ys := by
  fun_induction digits base most n xs with
  | case1 n => rfl
  | case2 n b rest hd => simp [digits, hd, bind, Except.bind]
  | case3 n b rest d hd hbase => simp [digits, hd, hbase, bind, Except.bind]
  | case4 n b rest d hd hbase hmost => simp [digits, hd, hbase, hmost, bind, Except.bind]
  | case5 n b rest d hd hbase hmost ih =>
    rw [cons_append, digits, hd]
    simp only
    rw [if_neg hbase, if_neg hmost, ih]

theorem digitValue_digit {d : Nat} (h : d < 10) : digitValue (UInt8.ofNat (48 + d)) = some d := by
  interval_cases d <;> rfl

/-- Decimal digits are read back. -/
theorem digits_ofNat {n most : Nat} (h : n ≤ most) :
    digits 10 most 0 (Text.ofNat n).bytes = .ok n := by
  induction n using Nat.strongRecOn with
  | ind n ih =>
    have hlast : n % 10 < 10 := Nat.mod_lt n (by decide)
    have hstep {m : Nat} (hm : m * 10 + n % 10 = n) :
        digits 10 most m [UInt8.ofNat (48 + n % 10)] = .ok n := by
      simp only [digits, digitValue_digit hlast, hm]
      rw [if_neg (by omega), if_neg (by omega)]
    rw [Text.bytes_ofNat, digits_append, bind_eq_ok]
    split
    next => exact ⟨0, rfl, hstep (by omega)⟩
    next => exact ⟨n / 10, ih (n / 10) (by omega) (by omega), hstep (by omega)⟩

/-- **A number that is written is read back**, if the bits hold it. -/
theorem nat_ofNat {bits n : Nat} (h : n < 2 ^ bits) : nat bits (Text.ofNat n) = .ok n := by
  obtain ⟨d, rest, hbytes, hd, hzero⟩ := Text.head_ofNat n
  have hdigits := digits_ofNat (show n ≤ 2 ^ bits - 1 by omega)
  have hne : ¬ (Text.ofNat n).isEmpty := by rw [Text.isEmpty, hbytes]; simp
  rw [nat, if_neg hne]
  rcases Nat.eq_zero_or_pos d with h0 | hpos
  · obtain ⟨rfl, rfl⟩ := hzero h0
    rw [hbytes, h0]
    rfl
  · have hten : announced (Text.ofNat n).bytes = (10, (Text.ofNat n).bytes) := by
      rw [hbytes]
      interval_cases d <;> rfl
    rw [hten]
    exact hdigits

/-- The same with a sign. -/
theorem int_ofInt {bits : Nat} {v : Int} (hbits : 0 < bits) (hlow : -2 ^ (bits - 1) ≤ v)
    (hhigh : v < 2 ^ (bits - 1)) : int bits (Text.ofInt v) = .ok v := by
  have hpow : 2 ^ (bits - 1) < 2 ^ bits := Nat.pow_lt_pow_right (by decide) (by omega)
  cases v with
  | ofNat n =>
    have hn : n < 2 ^ (bits - 1) := by
      rw [Int.ofNat_eq_natCast] at hhigh
      exact_mod_cast hhigh
    obtain ⟨d, rest, hbytes, hd, -⟩ := Text.head_ofNat n
    have hsign : int bits (Text.ofNat n) = nat bits (Text.ofNat n) >>= withSign bits false := by
      rw [int, signed, hbytes]
      interval_cases d <;> rfl
    rw [Text.ofInt_ofNat, hsign, nat_ofNat (by omega)]
    change withSign bits false n = _
    rw [withSign, if_neg Bool.false_ne_true]
    exact if_neg (Nat.not_le.mpr hn)
  | negSucc n =>
    have hn : n + 1 ≤ 2 ^ (bits - 1) := by
      rw [Int.negSucc_eq] at hlow
      have : (n : Int) + 1 ≤ 2 ^ (bits - 1) := by omega
      exact_mod_cast this
    have hsign : int bits ("-" ++ Text.ofNat (n + 1)) =
        nat bits (Text.ofNat (n + 1)) >>= withSign bits true := rfl
    rw [Text.ofInt_negSucc, hsign, nat_ofNat (by omega)]
    change withSign bits true (n + 1 : Nat) = _
    rw [withSign, if_pos rfl]
    exact if_neg (Nat.not_lt.mpr hn)

end Numeral

end Resumable
