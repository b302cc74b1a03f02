import Resumable.Proofs.Wire.Integer

/-!
# What is written is read back

Lengths, names and vectors are read back like the integers that they start with. The items of a
vector take a byte at least, so its length is never past the end of what was written.
-/

namespace Resumable.Wire

open List

/-! ## Lengths and names -/

/-- A length that the bytes behind it live up to. -/
theorem run_len {n p : Nat} {bs : Bytes} (hn : n < 2 ^ 32) (h : n ≤ bs.length) :
    ExceptT.run Reader.len ⟨len n ++ bs, p⟩ = (.ok n, ⟨bs, p + (len n).length⟩) := by
  have hto : (UInt32.ofNat n).toNat = n := UInt32.toNat_ofNat_of_lt' hn
  unfold Reader.len len
  rw [run_bind_ok (reads_u32 _ _ _), run_get_bind, hto, if_neg (Nat.not_lt.mpr h)]
  rfl

theorem run_bytes_eq_ok {n : Nat} {c c' : Cursor} {bs : Bytes} :
    ExceptT.run (Reader.bytes n) c = (.ok bs, c') ↔
      c.rest = bs ++ c'.rest ∧ bs.length = n ∧ c'.position = c.position + n := by
  obtain ⟨rest, p⟩ := c
  obtain ⟨rest', p'⟩ := c'
  unfold Reader.bytes
  rw [run_get_bind]
  by_cases hfits : n ≤ rest.length
  · have hcond : ¬ ((decide ((n : Int) < 0) || decide ((rest.length : Int) < (n : Int))) = true) := by
      simp only [Bool.or_eq_true, decide_eq_true_eq]
      omega
    rw [if_neg hcond]
    show (Except.ok (rest.take n), Cursor.mk (rest.drop n) (p + n)) = _ ↔ _
    simp only [Prod.mk.injEq, Except.ok.injEq, Cursor.mk.injEq]
    constructor
    · rintro ⟨rfl, rfl, rfl⟩
      exact ⟨(take_append_drop n rest).symm, length_take_of_le hfits, rfl⟩
    · rintro ⟨rfl, rfl, rfl⟩
      exact ⟨take_left, drop_left, rfl⟩
  · have hcond : (decide ((n : Int) < 0) || decide ((rest.length : Int) < (n : Int))) = true := by
      simp only [Bool.or_eq_true, decide_eq_true_eq]
      omega
    rw [if_pos hcond]
    constructor
    · intro h
      cases h
    · rintro ⟨rfl, rfl, _⟩
      exact absurd (length_append ▸ Nat.le_add_right _ _) hfits

theorem reads_bytes (bs : Bytes) : Reads (Reader.bytes bs.length) bs bs :=
  fun _ _ => run_bytes_eq_ok.mpr ⟨rfl, rfl, rfl⟩

theorem reads_name {t : Text} (hlen : t.size < 2 ^ 32) (ht : t.isUtf8) :
    Reads Reader.name (name t) t := by
  have hto : (UInt32.ofNat t.size).toNat = t.size := UInt32.toNat_ofNat_of_lt' hlen
  unfold Reader.name name len
  refine (reads_u32 _).bind ?_
  rw [hto, ← append_nil t.bytes]
  refine (reads_bytes t.bytes).bind ?_
  rw [if_pos ht]
  exact .pure t

/-- Four bytes hold all bits of a number. -/
theorem foldr_u32le (v : UInt32) :
    (u32le v).foldr (fun b (n : UInt32) => n <<< 8 ||| b.toUInt32) 0 = v := by
  have hleft (a : UInt32) : (a <<< 8).toBitVec = a.toBitVec <<< 8 := rfl
  have h8 : (v >>> 8).toBitVec = v.toBitVec >>> 8 := rfl
  have h16 : (v >>> 16).toBitVec = v.toBitVec >>> 16 := rfl
  have h24 : (v >>> 24).toBitVec = v.toBitVec >>> 24 := rfl
  refine UInt32.eq_of_toBitVec_eq (BitVec.eq_of_getLsbD_eq fun i hi => ?_)
  simp only [u32le, foldr_cons, foldr_nil, UInt32.toBitVec_or, hleft, h8, h16, h24,
    BitVec.getLsbD_or, BitVec.getLsbD_shiftLeft, UInt8.toBitVec_toUInt32, UInt32.toBitVec_toUInt8,
    BitVec.getLsbD_setWidth, BitVec.getLsbD_ushiftRight]
  grind

theorem reads_u32le (v : UInt32) : Reads Reader.u32le (u32le v) v := by
  have h := (reads_bytes (u32le v)).map
    (g := fun bs => bs.foldr (fun b (n : UInt32) => n <<< 8 ||| b.toUInt32) 0)
  rwa [foldr_u32le] at h

/-! ## Vectors -/

theorem reads_times {ε α : Type} {item : Reader ε α} {write : α → Bytes} {xs : List α}
    (h : ∀ x ∈ xs, Reads item (write x) x) :
    Reads (Reader.times item xs.length) (xs.flatMap write) xs := by
  induction xs with
  | nil => exact .pure []
  | cons x xs ih =>
    rw [flatMap_cons]
    refine (h x mem_cons_self).bind ?_
    exact (ih fun y hy => h y (mem_cons_of_mem x hy)).map

/-- Items that take a byte at least are not more than their bytes. -/
theorem length_le_flatMap {α : Type} {write : α → Bytes} {xs : List α}
    (h : ∀ x ∈ xs, 0 < (write x).length) : xs.length ≤ (xs.flatMap write).length := by
  induction xs with
  | nil => exact Nat.le_refl 0
  | cons x xs ih =>
    have h1 := h x mem_cons_self
    have h2 := ih fun y hy => h y (mem_cons_of_mem x hy)
    rw [flatMap_cons, length_append, length_cons]
    omega

/-- Names take as many bytes as there are names and as each of them has. -/
theorem length_names (ts : List Text) :
    ts.length ≤ (ts.flatMap name).length ∧ ∀ t ∈ ts, t.size ≤ (ts.flatMap name).length := by
  refine ⟨length_le_flatMap fun t _ => ?_, fun t ht => ?_⟩
  · rw [name, length_append]
    exact Nat.add_pos_left (length_u32_pos _) _
  · obtain ⟨before, after, rfl⟩ := append_of_mem ht
    simp only [flatMap_append, flatMap_cons, length_append, name, Text.size]
    omega

/-- A vector is read back with what comes behind it. Its items take a byte at least, so its length
is not past the end. -/
theorem reads_vector {α β : Type} {item : Reader Fault α} {write : α → Bytes} {xs : List α}
    {k : List α → Reader Fault β} {bs : Bytes} {y : β} (hlen : xs.length < 2 ^ 32)
    (h : ∀ x ∈ xs, Reads item (write x) x) (hpos : ∀ x ∈ xs, 0 < (write x).length)
    (hk : Reads (k xs) bs y) :
    Reads (Reader.len >>= fun n => Reader.times item n >>= k) (vector write xs ++ bs) y := by
  intro rest p
  have hfits : xs.length ≤ (xs.flatMap write ++ (bs ++ rest)).length := by
    rw [length_append]
    exact Nat.le_add_right_of_le (length_le_flatMap hpos)
  have hread := run_len (p := p) hlen hfits
  rw [vector, append_assoc, append_assoc, run_bind_ok hread,
    run_bind_ok (reads_times h _ _), hk, length_append, length_append]
  simp only [Nat.add_assoc]

/-- **What is written is read back.** The reader of each kind takes the bytes that were written,
whatever follows them, and gives what was written. However many groups there might be, a 32-bit
number is written in at most five and a 64-bit one in at most ten. -/
theorem written_read_back :
    (∀ v, Reads Reader.u32 (u32 v) v ∧ ∀ n, 5 ≤ n → (unsignedGroups n v).length ≤ 5) ∧
    (∀ v, Reads Reader.s32 (s32 v) v ∧ ∀ n, 5 ≤ n → (signedGroups n v.toInt64).length ≤ 5) ∧
    (∀ v, Reads Reader.s64 (s64 v) v ∧ ∀ n, 10 ≤ n → (signedGroups n v).length ≤ 10) ∧
    ∀ t : Text, t.isUtf8 → t.size < 2 ^ 32 → Reads Reader.name (name t) t := by
  refine ⟨fun v => ⟨reads_u32 v, fun n hn => ?_⟩, fun v => ⟨reads_s32 v, fun n hn => ?_⟩,
    fun v => ⟨reads_s64 v, fun n hn => ?_⟩, fun t ht hlen => reads_name hlen ht⟩
  · have := v.toNat_lt
    exact (isInteger_unsignedGroups (k := 4) (by omega) hn).2.1
  · have hto : v.toInt64.toInt = v.toInt := Int32.toInt_toInt64 v
    have := v.le_toInt
    have := v.toInt_lt
    exact (isInteger_signedGroups (k := 4) (by omega) (by omega) hn).2.1
  · have := v.le_toInt
    have := v.toInt_lt
    exact (isInteger_signedGroups (k := 9) (by omega) (by omega) hn).2.1

theorem written_read_back_snowman :
    Text.isUtf8 ⟨[0xE2, 0x98, 0x83]⟩ = true ∧
      Reads Reader.name (name ⟨[0xE2, 0x98, 0x83]⟩) ⟨[0xE2, 0x98, 0x83]⟩ :=
  ⟨by decide +kernel, written_read_back.2.2.2 _ (by decide +kernel) (by decide)⟩

end Resumable.Wire
