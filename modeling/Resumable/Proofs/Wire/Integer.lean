import Mathlib.Data.Nat.Digits.Lemmas
import Resumable.Proofs.Wire.Reads
import Resumable.Wire.Writer

/-!
# Integers and their groups

The bytes of an integer stand for a number: seven bits of each are a group, the lowest first. The
readers give this number modulo the width of their result, and the writers give the shortest bytes
that stand for a number. So a number that was written is read back.
-/

namespace Resumable.Wire

open List

variable {c c' : Cursor} {v : Int64}

/-- The bytes of one integer: each but the last announces another. -/
inductive IsInteger : Bytes → Prop
  | last {b : UInt8} (h : Reader.continues b = false) : IsInteger [b]
  | more {b : UInt8} {bs : Bytes} (h : Reader.continues b = true) (hbs : IsInteger bs) :
    IsInteger (b :: bs)

/-- The number that the groups make up. -/
def unsignedValue (bs : Bytes) : Nat := Nat.ofDigits 128 (bs.map fun b => b.toNat % 128)

/-- The number that they make up in two's complement. -/
def signedValue (bs : Bytes) : Int := (unsignedValue bs : Int).bmod (2 ^ (7 * bs.length))

section

variable {n p : Nat} {b : UInt8} {bs rest : Bytes} {c c' : Cursor}

theorem IsInteger.ne_nil (h : IsInteger bs) : bs ≠ [] := by
  cases h <;> exact cons_ne_nil _ _

theorem unsignedValue_cons (b : UInt8) (bs : Bytes) :
    unsignedValue (b :: bs) = b.toNat % 128 + 128 * unsignedValue bs := Nat.ofDigits_cons

theorem unsignedValue_lt (bs : Bytes) : unsignedValue bs < 2 ^ (7 * bs.length) := by
  have h := Nat.ofDigits_lt_base_pow_length (b := 128) (l := bs.map fun b => b.toNat % 128)
    (by decide) (by simp [Nat.mod_lt])
  rwa [length_map, show (128 : Nat) = 2 ^ 7 from rfl, ← Nat.pow_mul] at h

/-- The last group has the sign. -/
theorem signedValue_last (b : UInt8) :
    signedValue [b] = if b.toNat % 128 < 64 then (b.toNat % 128 : Int) else b.toNat % 128 - 128 := by
  have hb : unsignedValue [b] = b.toNat % 128 := by simp [unsignedValue]
  unfold signedValue
  rw [hb, Int.bmod_eq_iff (by simp)]
  simp only [length_singleton]
  split <;> omega

theorem signedValue_cons (b : UInt8) (hbs : bs ≠ []) :
    signedValue (b :: bs) = (b.toNat % 128 : Int) + 128 * signedValue bs := by
  obtain ⟨m, hm⟩ : ∃ m, 2 ^ (7 * bs.length) = 2 * m := by
    have := length_pos_iff.mpr hbs
    exact dvd_pow_self 2 (by omega)
  have hpow : 2 ^ (7 * (b :: bs).length) = 128 * (2 * m) := by
    rw [← hm, length_cons, Nat.mul_add, Nat.pow_add, Nat.mul_comm]
  have hpos : 0 < 2 * m := hm ▸ Nat.two_pow_pos _
  unfold signedValue
  rw [hm, hpow, unsignedValue_cons]
  obtain ⟨hlow, hhigh, d, hd⟩ := (Int.bmod_eq_iff (a := unsignedValue bs) hpos).mp rfl
  rw [Int.bmod_eq_iff (by omega)]
  refine ⟨by omega, by omega, d, ?_⟩
  push_cast at hd ⊢
  rw [add_sub_add_left_eq_sub, ← mul_sub, hd, mul_assoc, mul_assoc, mul_assoc]

/-! ## Taking the groups -/

/-- The bytes of an integer, at most `n` of them. Both readers of integers take these. -/
def groups : Nat → Reader Fault Bytes
  | 0 => Reader.faultHere .overflow
  | n + 1 => do
    let b ← Reader.byte
    if Reader.continues b then return b :: (← groups n) else return [b]

theorem reads_groups (h : IsInteger bs) (hn : bs.length ≤ n) : Reads (groups n) bs bs := by
  induction h generalizing n with
  | @last b hb =>
    obtain ⟨n, rfl⟩ := Nat.exists_eq_add_one.mpr hn
    rw [← append_nil [b]]
    refine (reads_byte b).bind ?_
    rw [if_neg (by simp [hb])]
    exact .pure _
  | more hb _ ih =>
    obtain ⟨n, rfl⟩ := Nat.exists_eq_add_one.mpr (Nat.zero_lt_of_lt hn)
    refine (reads_byte _).bind ?_
    rw [if_pos hb]
    exact (ih (Nat.le_of_succ_le_succ hn)).map

theorem run_groups_eq_ok : ExceptT.run (groups n) c = (.ok bs, c') ↔
    IsInteger bs ∧ bs.length ≤ n ∧ Takes c bs c' := by
  constructor
  · intro h
    induction n generalizing bs c with
    | zero => cases h
    | succ n ih =>
      obtain ⟨b, c₁, hb, h⟩ := run_bind_eq_ok.mp h
      obtain ⟨_ | ⟨b, rest⟩, p⟩ := c <;> cases hb
      split at h
      next hmore =>
        obtain ⟨bs, hbs, rfl⟩ := run_map_eq_ok.mp h
        obtain ⟨hint, hlen, hrest, hpos⟩ := ih hbs
        refine ⟨.more hmore hint, Nat.succ_le_succ hlen, congrArg (b :: ·) hrest, ?_⟩
        rw [hpos, length_cons]
        exact Nat.add_right_comm p 1 _
      next hlast =>
        cases h
        exact ⟨.last (Bool.eq_false_iff.mpr hlast), by simp, rfl, rfl⟩
  · obtain ⟨data, p⟩ := c
    obtain ⟨rest, p'⟩ := c'
    rintro ⟨hint, hlen, hrest, hpos⟩
    rw [show data = bs ++ rest from hrest, show p' = p + bs.length from hpos]
    exact reads_groups hint hlen rest p

/-- Of an integer with more groups, `n` are taken. -/
theorem run_groups_overflow (h : IsInteger bs) (hn : n < bs.length) :
    ExceptT.run (groups n) ⟨bs ++ rest, p⟩ =
      (.error (.overflow (p + n)), ⟨bs.drop n ++ rest, p + n⟩) := by
  induction h generalizing n p with
  | last =>
    obtain rfl : n = 0 := Nat.lt_one_iff.mp hn
    rfl
  | @more b bs hb _ ih =>
    cases n with
    | zero => rfl
    | succ n =>
      have hbs := ih (Nat.lt_of_succ_lt_succ hn) (p := p + 1)
      rw [Nat.add_right_comm] at hbs
      refine (run_bind_ok (reads_byte b (bs ++ rest) p)).trans ?_
      rw [if_pos hb]
      exact run_bind_error hbs

end

/-! ## Groups in words -/

/-- Seven bits of a byte are a group, of which one may be the sign, and one announces another group. -/
theorem byte_bits (b : UInt8) : Reader.continues b = decide (128 ≤ b.toNat) ∧
    (b &&& 0x7F).toNat = b.toNat % 128 ∧ (b ||| 0x80).toNat = b.toNat % 128 + 128 ∧
    (b &&& 0x40 = 0 ↔ b.toNat % 128 < 64) := by
  have hall : ∀ n : Fin 256, Reader.continues (.ofNat n) = decide (128 ≤ n.val) ∧
      (UInt8.ofNat n &&& 0x7F).toNat = n % 128 ∧ (UInt8.ofNat n ||| 0x80).toNat = n % 128 + 128 ∧
      (UInt8.ofNat n &&& 0x40 = 0 ↔ n.val % 128 < 64) := by
    decide +kernel
  simpa using hall ⟨b.toNat, b.toNat_lt⟩

/-- Bits that are put above others are added, as far as there is room. -/
theorem or_shiftLeft_mod {w s a g : Nat} (ha : a < 2 ^ s) (hs : s < w) :
    a ||| (g <<< s) % 2 ^ w = (a + 2 ^ s * g) % 2 ^ w := by
  have ha' : a % 2 ^ w = a := Nat.mod_eq_of_lt (ha.trans (Nat.pow_lt_pow_right (by decide) hs))
  rw [Nat.add_comm, Nat.two_pow_add_eq_or_of_lt ha, Nat.or_mod_two_pow, ha', Nat.or_comm,
    Nat.shiftLeft_eq, Nat.mul_comm]

/-- The lower bits with another group have seven bits more. -/
theorem add_group_lt {a s : Nat} (b : UInt8) (ha : a < 2 ^ s) :
    a + 2 ^ s * (b.toNat % 128) < 2 ^ (s + 7) := by
  have := Nat.mul_le_mul_left (2 ^ s) (show b.toNat % 128 ≤ 127 by omega)
  rw [Nat.pow_add]
  omega

/-! ## Unsigned integers -/

/-- The groups put together above the lower bits `acc`. -/
def joinUnsigned (shift acc : UInt32) : Bytes → UInt32
  | [] => acc
  | b :: bs => joinUnsigned (shift + 7) (acc ||| (b &&& 0x7F).toUInt32 <<< shift) bs

theorem unsignedGroups_eq (n : Nat) (shift acc : UInt32) :
    Reader.unsignedGroups n shift acc = do return joinUnsigned shift acc (← groups n) := by
  induction n generalizing shift acc with
  | zero => rfl
  | succ n ih =>
    simp only [Reader.unsignedGroups, groups, bind_assoc]
    refine bind_congr fun b => ?_
    split
    · simp only [ih, bind_assoc, pure_bind, joinUnsigned]
    · rw [pure_bind]
      rfl

theorem toNat_joinUnsigned {bs : Bytes} {shift acc : UInt32}
    (hs : shift.toNat + 7 * bs.length ≤ 35) (ha : acc.toNat < 2 ^ shift.toNat) :
    (joinUnsigned shift acc bs).toNat =
      (acc.toNat + 2 ^ shift.toNat * unsignedValue bs) % 2 ^ 32 := by
  induction bs generalizing shift acc with
  | nil => exact (Nat.mod_eq_of_lt acc.toNat_lt).symm
  | cons b bs ih =>
    rw [length_cons] at hs
    have hroom : shift.toNat < 32 := by omega
    have hshift : (shift + 7).toNat = shift.toNat + 7 := by
      rw [UInt32.toNat_add, Nat.mod_eq_of_lt (by simp; omega)]
      rfl
    have hgroup : (acc ||| (b &&& 0x7F).toUInt32 <<< shift).toNat =
        (acc.toNat + 2 ^ shift.toNat * (b.toNat % 128)) % 2 ^ 32 := by
      rw [UInt32.toNat_or, UInt32.toNat_shiftLeft, Nat.mod_eq_of_lt hroom,
        UInt8.toNat_toUInt32, (byte_bits b).2.1, or_shiftLeft_mod ha hroom]
    rw [joinUnsigned, ih (by omega), hshift, hgroup, unsignedValue_cons, Nat.mod_add_mod,
      Nat.pow_add, Nat.mul_add, Nat.add_assoc, Nat.mul_assoc]
    rw [hgroup, hshift]
    exact (Nat.mod_le _ _).trans_lt (add_group_lt b ha)

theorem run_u32 {v : UInt32} : ExceptT.run Reader.u32 c = (.ok v, c') ↔
    ∃ bs, IsInteger bs ∧ bs.length ≤ 5 ∧ Takes c bs c' ∧ v.toNat = unsignedValue bs % 2 ^ 32 := by
  unfold Reader.u32
  rw [unsignedGroups_eq, run_map_eq_ok]
  simp only [run_groups_eq_ok, ← UInt32.toNat_inj, and_assoc]
  refine exists_congr fun bs => and_congr_right fun _ => and_congr_right fun hlen =>
    and_congr_right fun _ => ?_
  rw [toNat_joinUnsigned (by simp; omega) (by simp), eq_comm]
  simp

/-! ## Signed integers -/

/-- The groups put together above the lower bits `acc`, with the sign of the last one. -/
def joinSigned (shift acc : UInt64) : Bytes → Int64
  | [] => acc.toInt64
  | b :: bs =>
    let acc := acc ||| (b &&& 0x7F).toUInt64 <<< shift
    if Reader.continues b then joinSigned (shift + 7) acc bs
    else if shift + 7 < 64 && b &&& 0x40 != 0 then
      (acc ||| 0xFFFFFFFFFFFFFFFF <<< (shift + 7)).toInt64
    else acc.toInt64

theorem signedGroups_eq (n : Nat) (shift acc : UInt64) :
    Reader.signedGroups n shift acc = do return joinSigned shift acc (← groups n) := by
  induction n generalizing shift acc with
  | zero => rfl
  | succ n ih =>
    simp only [Reader.signedGroups, groups, bind_assoc]
    refine bind_congr fun b => ?_
    by_cases hb : Reader.continues b = true
    · simp only [if_pos hb, ih, bind_assoc, pure_bind, joinSigned]
    · simp only [if_neg hb, pure_bind, joinSigned]
      split <;> rfl

/-- A word is a number modulo `2 ^ 64`, and it does not matter by how many multiples it differs. -/
theorem toInt_toInt64 {x : UInt64} {n : Nat} {y : Int} (hx : x.toNat = n % 2 ^ 64) (d : Int)
    (h : (n : Int) = y + (2 ^ 64 : Nat) * d) : x.toInt64.toInt = y.bmod (2 ^ 64) := by
  have hbmod : x.toInt64.toInt = (x.toNat : Int).bmod (2 ^ 64) :=
    BitVec.toInt_eq_toNat_bmod x.toBitVec
  rw [hbmod, hx, Int.natCast_emod, Int.emod_bmod, h, Int.add_mul_bmod_self_left]

section

variable {shift acc : UInt64}

theorem toNat_add_seven {s : UInt64} (hs : s.toNat < 64) : (s + 7).toNat = s.toNat + 7 := by
  rw [UInt64.toNat_add, Nat.mod_eq_of_lt (by simp; omega)]
  rfl

theorem toNat_or_group (b : UInt8) (hs : shift.toNat < 64) (ha : acc.toNat < 2 ^ shift.toNat) :
    (acc ||| (b &&& 0x7F).toUInt64 <<< shift).toNat =
      (acc.toNat + 2 ^ shift.toNat * (b.toNat % 128)) % 2 ^ 64 := by
  rw [UInt64.toNat_or, UInt64.toNat_shiftLeft, Nat.mod_eq_of_lt hs, UInt8.toNat_toUInt64,
    (byte_bits b).2.1, or_shiftLeft_mod ha hs]

/-- Where seven bits more fit into the word, nothing is lost. -/
theorem toNat_or_group_of_le (b : UInt8) (hs : shift.toNat + 7 ≤ 64)
    (ha : acc.toNat < 2 ^ shift.toNat) : (acc ||| (b &&& 0x7F).toUInt64 <<< shift).toNat =
      acc.toNat + 2 ^ shift.toNat * (b.toNat % 128) := by
  have hlt := add_group_lt b ha
  have hle : 2 ^ (shift.toNat + 7) ≤ 2 ^ 64 := Nat.pow_le_pow_right (by decide) hs
  rw [toNat_or_group b (by omega) ha, Nat.mod_eq_of_lt (by omega)]

theorem toInt_joinSigned {bs : Bytes} (h : IsInteger bs) (hs : shift.toNat + 7 * bs.length ≤ 70)
    (ha : acc.toNat < 2 ^ shift.toNat) : (joinSigned shift acc bs).toInt =
      (acc.toNat + 2 ^ shift.toNat * signedValue bs).bmod (2 ^ 64) := by
  induction h generalizing shift acc with
  | @last b hb =>
    rw [length_singleton] at hs
    have hbit := (byte_bits b).2.2.2
    have hgroup := toNat_or_group b (by omega) ha
    have hshift := toNat_add_seven (s := shift) (by omega)
    have hroom : shift + 7 < 64 ↔ shift.toNat + 7 < 64 := by
      rw [UInt64.lt_iff_toNat_lt, hshift]
      rfl
    unfold joinSigned
    rw [if_neg (by simp [hb]), signedValue_last]
    by_cases hsign : b.toNat % 128 < 64
    · rw [if_neg (by simp [hbit, hsign]), if_pos hsign]
      refine toInt_toInt64 hgroup 0 ?_
      push_cast
      ring
    rw [if_neg hsign]
    by_cases hfull : shift.toNat + 7 < 64
    · rw [if_pos (by simp [hroom, hfull, hbit, hsign])]
      refine toInt_toInt64 (n := acc.toNat + 2 ^ shift.toNat * (b.toNat % 128) +
        2 ^ (shift.toNat + 7) * (2 ^ 64 - 1)) ?_ (2 ^ shift.toNat * 128) ?_
      · rw [UInt64.toNat_or, UInt64.toNat_shiftLeft, hshift, Nat.mod_eq_of_lt hfull,
          toNat_or_group_of_le b hfull.le ha, or_shiftLeft_mod (add_group_lt b ha) hfull]
        rfl
      · rw [pow_add]
        push_cast
        ring
    · -- The sign is at a place that the word does not have.
      obtain ⟨d, hd⟩ := Nat.pow_dvd_pow 2 (Nat.not_lt.mp hfull)
      have hd' : (2 : Int) ^ shift.toNat * 128 = 2 ^ 64 * d := by
        rw [Nat.pow_add] at hd
        exact_mod_cast hd
      rw [if_neg (by simp [hroom, hfull])]
      refine toInt_toInt64 hgroup d ?_
      rw [mul_sub, hd']
      push_cast
      ring
  | @more b bs hb hbs ih =>
    have hlen := length_pos_iff.mpr hbs.ne_nil
    rw [length_cons] at hs
    have hgroup := toNat_or_group_of_le b (by omega) ha
    have hshift := toNat_add_seven (s := shift) (by omega)
    unfold joinSigned
    rw [if_pos hb, ih (by omega) (by rw [hgroup, hshift]; exact add_group_lt b ha), hgroup, hshift,
      signedValue_cons b hbs.ne_nil, pow_add]
    congr 1
    push_cast
    ring

end

theorem run_s64 : ExceptT.run Reader.s64 c = (.ok v, c') ↔
    ∃ bs, IsInteger bs ∧ bs.length ≤ 10 ∧ Takes c bs c' ∧
      v.toInt = (signedValue bs).bmod (2 ^ 64) := by
  unfold Reader.s64
  rw [signedGroups_eq, run_map_eq_ok]
  simp only [run_groups_eq_ok, ← Int64.toInt_inj, and_assoc]
  refine exists_congr fun bs => and_congr_right fun hint => and_congr_right fun hlen =>
    and_congr_right fun _ => ?_
  rw [toInt_joinSigned hint (by simp; omega) (by simp), eq_comm]
  simp

/-- Thirty-two bits hold a number. -/
def Fits32 (x : Int) : Prop := -2 ^ 31 ≤ x ∧ x < 2 ^ 31

theorem fits32_iff (w : Int64) :
    Fits32 w.toInt ↔ ¬ (w < -2147483648 || 2147483647 < w) = true := by
  simp only [Bool.or_eq_true, decide_eq_true_eq, Int64.lt_iff_toInt_lt]
  rw [show (-2147483648 : Int64).toInt = -2147483648 from rfl,
    show (2147483647 : Int64).toInt = 2147483647 from rfl, Fits32]
  omega

theorem run_s32 {v : Int32} : ExceptT.run Reader.s32 c = (.ok v, c') ↔
    ∃ bs, IsInteger bs ∧ bs.length ≤ 10 ∧ Takes c bs c' ∧
      v.toInt = (signedValue bs).bmod (2 ^ 64) := by
  unfold Reader.s32
  rw [run_bind_eq_ok]
  constructor
  · rintro ⟨w, c₁, hw, h⟩
    split at h
    next => cases h
    next hfits =>
      cases h
      obtain ⟨hlow, hhigh⟩ := (fits32_iff w).mpr hfits
      obtain ⟨bs, hint, hlen, htakes, hval⟩ := run_s64.mp hw
      refine ⟨bs, hint, hlen, htakes, ?_⟩
      rw [Int64.toInt_toInt32, ← hval, Int.bmod_eq_of_le (by omega) (by omega)]
  · rintro ⟨bs, hint, hlen, htakes, hval⟩
    have hto : v.toInt64.toInt = v.toInt := Int32.toInt_toInt64 v
    have hfits : Fits32 v.toInt64.toInt := hto ▸ ⟨v.le_toInt, v.toInt_lt⟩
    refine ⟨v.toInt64, c', run_s64.mpr ⟨bs, hint, hlen, htakes, hto.trans hval⟩, ?_⟩
    rw [if_neg ((fits32_iff _).mp hfits), Int32.toInt32_toInt64]
    rfl

/-- Fewer groups than a word has room for are a number of that word. -/
theorem signedValue_bmod {bs : Bytes} (h : bs.length < 10) :
    (signedValue bs).bmod (2 ^ 64) = signedValue bs := by
  have hpow : 2 ^ (7 * bs.length) ≤ 2 ^ 63 := Nat.pow_le_pow_right (by decide) (by omega)
  obtain ⟨hlow, hhigh, -⟩ :=
    (Int.bmod_eq_iff (a := unsignedValue bs) (Nat.two_pow_pos (7 * bs.length))).mp rfl
  rw [signedValue, Int.bmod_eq_of_le (by omega) (by omega)]

theorem run_s64_overflow {bs rest : Bytes} {p : Nat} (h : IsInteger bs) (hlen : 10 < bs.length) :
    ExceptT.run Reader.s64 ⟨bs ++ rest, p⟩ =
      (.error (.overflow (p + 10)), ⟨bs.drop 10 ++ rest, p + 10⟩) := by
  unfold Reader.s64
  rw [signedGroups_eq]
  exact run_bind_error (run_groups_overflow h hlen)

/-- **Integers are read modulo the width of the result.** A reader of integers succeeds on the bytes
of one integer, at most five or ten of them, and takes nothing else. What it gives is the number
that they stand for, modulo `2 ^ 32` or `2 ^ 64`, which is the number itself if there are fewer of
them. Integers of more bytes overflow, and so do signed 32-bit ones that are out of range. -/
theorem integers_modulo (c c' : Cursor) :
    (∀ v, ExceptT.run Reader.u32 c = (.ok v, c') ↔ ∃ bs, IsInteger bs ∧ bs.length ≤ 5 ∧
      Takes c bs c' ∧ v.toNat = unsignedValue bs % 2 ^ 32) ∧
    (∀ v, ExceptT.run Reader.s64 c = (.ok v, c') ↔ ∃ bs, IsInteger bs ∧ bs.length ≤ 10 ∧
      Takes c bs c' ∧ v.toInt = (signedValue bs).bmod (2 ^ 64)) ∧
    (∀ v, ExceptT.run Reader.s32 c = (.ok v, c') ↔ ∃ bs, IsInteger bs ∧ bs.length ≤ 10 ∧
      Takes c bs c' ∧ v.toInt = (signedValue bs).bmod (2 ^ 64)) ∧
    ∀ bs rest, IsInteger bs → c.rest = bs ++ rest →
      (bs.length < 5 → unsignedValue bs % 2 ^ 32 = unsignedValue bs) ∧
      (bs.length < 10 → (signedValue bs).bmod (2 ^ 64) = signedValue bs) ∧
      (5 < bs.length → (ExceptT.run Reader.u32 c).1 = .error (.overflow (c.position + 5))) ∧
      (10 < bs.length →
        (ExceptT.run Reader.s64 c).1 = .error (.overflow (c.position + 10)) ∧
        (ExceptT.run Reader.s32 c).1 = .error (.overflow (c.position + 10))) ∧
      (bs.length ≤ 10 → ¬ Fits32 ((signedValue bs).bmod (2 ^ 64)) →
        (ExceptT.run Reader.s32 c).1 = .error (.overflow (c.position + bs.length))) := by
  refine ⟨fun _ => run_u32, fun _ => run_s64, fun _ => run_s32, ?_⟩
  obtain ⟨whole, p⟩ := c
  rintro bs rest h rfl
  refine ⟨fun hlen => ?_, signedValue_bmod, fun hlen => ?_, fun hlen => ?_, fun hlen hfits => ?_⟩
  · have hpow : 2 ^ (7 * bs.length) ≤ 2 ^ 32 := Nat.pow_le_pow_right (by decide) (by omega)
    exact Nat.mod_eq_of_lt ((unsignedValue_lt bs).trans_le hpow)
  · unfold Reader.u32
    rw [unsignedGroups_eq, run_bind_error (run_groups_overflow h hlen)]
  · unfold Reader.s32
    rw [run_bind_error (run_s64_overflow h hlen), run_s64_overflow h hlen]
    exact ⟨rfl, rfl⟩
  · have hval : (Int64.ofInt (signedValue bs)).toInt = (signedValue bs).bmod (2 ^ 64) :=
      Int64.toInt_ofInt
    have hread : ExceptT.run Reader.s64 ⟨bs ++ rest, p⟩ =
        (.ok (.ofInt (signedValue bs)), ⟨rest, p + bs.length⟩) :=
      run_s64.mpr ⟨bs, h, hlen, ⟨rfl, rfl⟩, hval⟩
    rw [← hval, fits32_iff, not_not] at hfits
    unfold Reader.s32
    rw [run_bind_ok hread, if_pos hfits]
    rfl

/-- Six groups are one too many, whatever they stand for. -/
theorem integers_modulo_six :
    (ExceptT.run Reader.u32 ⟨[0x80, 0x80, 0x80, 0x80, 0x80, 0x00], 0⟩).1 = .error (.overflow 5) :=
  ((integers_modulo _ ⟨[], 0⟩).2.2.2 [0x80, 0x80, 0x80, 0x80, 0x80, 0x00] []
    (.more rfl (.more rfl (.more rfl (.more rfl (.more rfl (.last rfl)))))) rfl).2.2.1 (by decide)

/-- The fifth group of an unsigned integer may have bits that the result has no room for, and so may
the tenth of a signed one. They are dropped, and there is no fault. -/
theorem integers_lose_bits :
    ExceptT.run Reader.u32 ⟨[0xFF, 0xFF, 0xFF, 0xFF, 0x7F], 0⟩ = (.ok 4294967295, ⟨[], 5⟩) ∧
    unsignedValue [0xFF, 0xFF, 0xFF, 0xFF, 0x7F] = 34359738367 ∧
    ExceptT.run Reader.s64 ⟨[0x80, 0x80, 0x80, 0x80, 0x80, 0x80, 0x80, 0x80, 0x80, 0x02], 0⟩ =
      (.ok 0, ⟨[], 10⟩) ∧
    signedValue [0x80, 0x80, 0x80, 0x80, 0x80, 0x80, 0x80, 0x80, 0x80, 0x02] = 2 ^ 64 :=
  ⟨rfl, by decide, rfl, by decide⟩

/-! ## Written integers -/

/-- A byte without its high bit is a last group, and with it another group follows. -/
theorem continues_of_lt {g : UInt8} (hg : g.toNat < 128) : Reader.continues g = false ∧
    Reader.continues (g ||| 0x80) = true ∧ (g ||| 0x80).toNat % 128 = g.toNat := by
  rw [(byte_bits g).1, (byte_bits (g ||| 0x80)).1, (byte_bits g).2.2.1]
  exact ⟨decide_eq_false (by omega), decide_eq_true (by omega), by omega⟩

/-- The lowest group of a number and the rest of it. -/
theorem toNat_group (v : UInt32) :
    (v &&& 0x7F).toUInt8.toNat = v.toNat % 128 ∧ (v >>> 7).toNat = v.toNat / 128 := by
  constructor
  · have hand : v.toNat &&& 127 = v.toNat % 128 := Nat.and_two_pow_sub_one_eq_mod v.toNat 7
    rw [UInt32.toNat_toUInt8, UInt32.toNat_and]
    simp only [UInt32.reduceToNat, hand]
    omega
  · rw [UInt32.toNat_shiftRight]
    exact Nat.shiftRight_eq_div_pow v.toNat 7

/-- A number that `k + 1` groups have room for is written in at most so many. -/
theorem isInteger_unsignedGroups {n k : Nat} {v : UInt32} (hv : v.toNat < 2 ^ (7 * (k + 1)))
    (hn : k < n) : IsInteger (unsignedGroups n v) ∧ (unsignedGroups n v).length ≤ k + 1 ∧
      unsignedValue (unsignedGroups n v) = v.toNat := by
  induction n generalizing k v with
  | zero => cases hn
  | succ n ih =>
    obtain ⟨hg, hhigher⟩ := toNat_group v
    obtain ⟨hlast, hmore, hmod⟩ := continues_of_lt (g := (v &&& 0x7F).toUInt8) (by omega)
    have hzero : v >>> 7 = 0 ↔ v.toNat / 128 = 0 := by
      rw [← UInt32.toNat_inj, hhigher, UInt32.toNat_zero]
    unfold unsignedGroups
    split
    next hend =>
      rw [hzero] at hend
      refine ⟨.last hlast, by simp, ?_⟩
      rw [unsignedValue_cons, hg, unsignedValue, map_nil, Nat.ofDigits_nil]
      omega
    next hrest =>
      rw [hzero] at hrest
      cases k with
      | zero => omega
      | succ k =>
        have hv' : (v >>> 7).toNat < 2 ^ (7 * (k + 1)) := by
          rw [hhigher, Nat.div_lt_iff_lt_mul (by decide)]
          rwa [Nat.mul_succ 7 (k + 1), Nat.pow_add] at hv
        obtain ⟨hint, hlen, hval⟩ := ih hv' (Nat.lt_of_succ_lt_succ hn)
        refine ⟨.more hmore hint, Nat.succ_le_succ hlen, ?_⟩
        rw [unsignedValue_cons, hmod, hval, hg, hhigher]
        omega

theorem reads_u32 (v : UInt32) : Reads Reader.u32 (u32 v) v := by
  have hv := v.toNat_lt
  obtain ⟨hint, hlen, hval⟩ := isInteger_unsignedGroups (n := 5) (k := 4) (v := v) (by omega)
    (by decide)
  intro rest p
  refine run_u32.mpr ⟨_, hint, hlen, ⟨rfl, rfl⟩, ?_⟩
  rw [hval, Nat.mod_eq_of_lt hv]

theorem length_u32_pos (v : UInt32) : 0 < (u32 v).length := by
  unfold u32 unsignedGroups
  split <;> simp

/-- A number that is not greater than one that was read takes no more bytes. -/
theorem length_u32_le {v w : UInt32} (h : ExceptT.run Reader.u32 c = (.ok v, c'))
    (hw : w ≤ v) : (u32 w).length + c'.rest.length ≤ c.rest.length := by
  obtain ⟨bs, hint, hlen, ⟨hrest, -⟩, hval⟩ := run_u32.mp h
  obtain ⟨k, hk⟩ := Nat.exists_eq_add_one.mpr (length_pos_iff.mpr hint.ne_nil)
  have hle : w.toNat ≤ unsignedValue bs :=
    (UInt32.le_iff_toNat_le.mp hw).trans (hval ▸ Nat.mod_le _ _)
  have hw' : (unsignedGroups 5 w).length ≤ k + 1 :=
    (isInteger_unsignedGroups (hk ▸ hle.trans_lt (unsignedValue_lt bs)) (by omega)).2.1
  rw [hrest, length_append, hk]
  exact Nat.add_le_add_right hw' _

/-- The lowest group of a signed number and the rest of it. -/
theorem toInt_group (v : Int64) :
    ((v &&& 0x7F).toUInt64.toUInt8.toNat : Int) = v.toInt % 128 ∧
      (v >>> 7).toInt = v.toInt / 128 := by
  constructor
  · have hand : v.toBitVec.toNat &&& 127 = v.toBitVec.toNat % 128 :=
      Nat.and_two_pow_sub_one_eq_mod v.toBitVec.toNat 7
    show (((v.toBitVec.toNat &&& 127) % 256 : Nat) : Int) = v.toBitVec.toInt % 128
    rw [hand, BitVec.toInt_eq_toNat_cond]
    split <;> omega
  · show (v >>> 7).toBitVec.toInt = _
    rw [Int64.toBitVec_shiftRight]
    exact BitVec.toInt_sshiftRight.trans (Int.shiftRight_eq_div_pow v.toInt 7)

/-- A group is the last one if only copies of its sign are left. -/
theorem isLast_iff {g : UInt8} (hg : (g.toNat : Int) = v.toInt % 128) :
    ((v >>> 7 = 0 && g &&& 0x40 = 0) || (v >>> 7 = -1 && g &&& 0x40 ≠ 0)) = true ↔
      -64 ≤ v.toInt ∧ v.toInt < 64 := by
  have h0 : (0 : Int64).toInt = 0 := rfl
  have h1 : (-1 : Int64).toInt = -1 := rfl
  simp only [Bool.or_eq_true, Bool.and_eq_true, decide_eq_true_eq, ne_eq, (byte_bits g).2.2.2,
    ← Int64.toInt_inj, (toInt_group v).2, h0, h1]
  omega

theorem isInteger_signedGroups {n k : Nat} (hlow : -2 ^ (7 * k + 6) ≤ v.toInt)
    (hhigh : v.toInt < 2 ^ (7 * k + 6)) (hn : k < n) : IsInteger (signedGroups n v) ∧
      (signedGroups n v).length ≤ k + 1 ∧ signedValue (signedGroups n v) = v.toInt := by
  induction n generalizing k v with
  | zero => cases hn
  | succ n ih =>
    obtain ⟨hg, hhigher⟩ := toInt_group v
    obtain ⟨hlast, hmore, hmod⟩ := continues_of_lt (g := (v &&& 0x7F).toUInt64.toUInt8)
      (by omega)
    unfold signedGroups
    dsimp only
    split
    next hend =>
      rw [isLast_iff hg] at hend
      refine ⟨.last hlast, by simp, ?_⟩
      rw [signedValue_last, hg]
      split <;> omega
    next hrest =>
      rw [isLast_iff hg] at hrest
      cases k with
      | zero => omega
      | succ k =>
        have hpow : (2 : Int) ^ (7 * (k + 1) + 6) = 2 ^ (7 * k + 6) * 128 := by
          rw [show 7 * (k + 1) + 6 = 7 * k + 6 + 7 by omega, pow_add]
          rfl
        obtain ⟨hint, hlen, hval⟩ := ih (v := v >>> 7) (k := k) (by omega) (by omega)
          (Nat.lt_of_succ_lt_succ hn)
        refine ⟨.more hmore hint, Nat.succ_le_succ hlen, ?_⟩
        rw [signedValue_cons _ hint.ne_nil, hval]
        omega

theorem reads_s64 (v : Int64) : Reads Reader.s64 (s64 v) v := by
  have hlow := v.le_toInt
  have hhigh := v.toInt_lt
  obtain ⟨hint, hlen, hval⟩ := isInteger_signedGroups (n := 10) (k := 9) (v := v) (by omega)
    (by omega) (by decide)
  intro rest p
  refine run_s64.mpr ⟨_, hint, hlen, ⟨rfl, rfl⟩, ?_⟩
  rw [hval, Int.bmod_eq_of_le (by omega) (by omega)]

theorem reads_s32 (v : Int32) : Reads Reader.s32 (s32 v) v := by
  intro rest p
  obtain ⟨bs, hint, hlen, htakes, hval⟩ := run_s64.mp (reads_s64 v.toInt64 rest p)
  exact run_s32.mpr ⟨bs, hint, hlen, htakes, (Int32.toInt_toInt64 v).symm.trans hval⟩

end Resumable.Wire
