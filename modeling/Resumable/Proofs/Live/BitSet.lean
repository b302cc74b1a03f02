import Mathlib.Data.List.Sort
import Mathlib.Data.Nat.Bitwise
import Mathlib.Data.Set.Insert
import Resumable.Live.BitSet

/-!
# Bit sets are sets

What the operations of `BitSet` do to membership. Everything rests on single bits of words, so the
lemmas on words come first; the operations on rows of words follow from them member by member.
-/

namespace Resumable

open List

namespace BitSet

/-! ## Words -/

/-- Is bit `k` of a word set? -/
def bit (w : UInt64) (k : Nat) : Bool := w.toNat.testBit k

theorem toNat_bitOf (v : UInt32) : (bitOf v).toNat = 2 ^ (v.toNat % 64) := by
  have hk : v.toNat % 64 < 64 := Nat.mod_lt _ (by omega)
  have hlt : 2 ^ (v.toNat % 64) < 2 ^ 64 := Nat.pow_lt_pow_right (by omega) hk
  unfold bitOf
  rw [UInt64.toNat_shiftLeft, UInt64.toNat_ofNat', Nat.mod_eq_of_lt (a := v.toNat % 64) (by omega),
    Nat.mod_eq_of_lt hk]
  show (1 <<< (v.toNat % 64)) % 2 ^ 64 = _
  rw [Nat.one_shiftLeft, Nat.mod_eq_of_lt hlt]

theorem and_bitOf_ne_zero (w : UInt64) (v : UInt32) :
    (w &&& bitOf v != 0) = bit w (v.toNat % 64) := by
  have hand : (w &&& bitOf v).toNat = (bit w (v.toNat % 64)).toNat * 2 ^ (v.toNat % 64) := by
    rw [UInt64.toNat_and, toNat_bitOf, Nat.and_two_pow]
    rfl
  have hpos : 0 < 2 ^ (v.toNat % 64) := Nat.two_pow_pos _
  have hzero : w &&& bitOf v = 0 ↔ (w &&& bitOf v).toNat = 0 := by
    rw [← UInt64.toNat_inj]
    rfl
  cases hb : bit w (v.toNat % 64) with
  | true =>
    rw [hb] at hand
    simp only [Bool.toNat_true, Nat.one_mul] at hand
    simp only [bne_iff_ne, ne_eq, hzero, hand]
    omega
  | false =>
    rw [hb] at hand
    simp only [Bool.toNat_false, Nat.zero_mul] at hand
    simp [hzero.mpr hand]

theorem bit_zero (k : Nat) : bit 0 k = false := by simp [bit]

theorem bit_or (a b : UInt64) (k : Nat) : bit (a ||| b) k = (bit a k || bit b k) := by
  simp [bit]

theorem bit_and (a b : UInt64) (k : Nat) : bit (a &&& b) k = (bit a k && bit b k) := by
  simp [bit]

theorem bit_not (a : UInt64) {k : Nat} (hk : k < 64) : bit (~~~a) k = !bit a k := by
  unfold bit
  rw [← UInt64.toNat_toBitVec, ← UInt64.toNat_toBitVec, BitVec.testBit_toNat, BitVec.testBit_toNat,
    UInt64.toBitVec_not, BitVec.getLsbD_not]
  simp [hk]

theorem bit_bitOf (v : UInt32) (k : Nat) : bit (bitOf v) k = decide (k = v.toNat % 64) := by
  unfold bit
  rw [toNat_bitOf, Nat.testBit_two_pow]
  simp [eq_comm]

theorem bit_bitOf_sub_one (v : UInt32) (k : Nat) :
    bit (bitOf v - 1) k = decide (k < v.toNat % 64) := by
  have hpos : 0 < 2 ^ (v.toNat % 64) := Nat.two_pow_pos _
  have hle : (1 : UInt64) ≤ bitOf v := by
    rw [UInt64.le_iff_toNat_le, toNat_bitOf]
    exact hpos
  unfold bit
  rw [UInt64.toNat_sub_of_le _ _ hle, toNat_bitOf]
  show (2 ^ (v.toNat % 64) - 1).testBit k = _
  rw [Nat.testBit_two_pow_sub_one]

/-- A word is zero if none of its bits is set. -/
theorem eq_zero_of_bit {w : UInt64} (h : ∀ k < 64, bit w k = false) : w = 0 := by
  rw [← UInt64.toNat_inj]
  refine Nat.eq_of_testBit_eq fun k => ?_
  rw [show (0 : UInt64).toNat = 0 from rfl, Nat.zero_testBit]
  by_cases hk : k < 64
  · exact h k hk
  · have hw : w.toNat < 2 ^ k :=
      Nat.lt_of_lt_of_le w.toNat_lt (Nat.pow_le_pow_right (by omega) (by omega))
    exact Nat.testBit_lt_two_pow hw

/-! ## Rows of words -/

variable {s t : BitSet} {u v : UInt32}

/-- Word `i` of a row, where words past the end are zero. -/
def wordAt (s : BitSet) (i : Nat) : UInt64 := s.words.getD i 0

theorem contains_eq (s : BitSet) (v : UInt32) :
    s.contains v = bit (s.wordAt (wordOf v)) (v.toNat % 64) := by
  unfold contains wordAt
  rw [getD_eq_getElem?_getD]
  cases s.words[wordOf v]? with
  | none => exact (bit_zero _).symm
  | some w => exact and_bitOf_ne_zero w v

theorem wordAt_extend (s : BitSet) (n i : Nat) : (s.extend n).wordAt i = s.wordAt i := by
  unfold wordAt extend
  simp only [getD_eq_getElem?_getD, getElem?_append, getElem?_replicate]
  by_cases hi : i < s.words.length
  · simp [hi]
  · simp only [hi, if_false, getElem?_eq_none (Nat.not_lt.mp hi)]
    split <;> rfl

theorem length_extend (s : BitSet) (n : Nat) :
    (s.extend n).words.length = max s.words.length n := by
  simp only [extend, length_append, length_replicate]
  omega

theorem wordAt_insert (s : BitSet) (v : UInt32) (i : Nat) :
    (s.insert v).wordAt i = if i = wordOf v then s.wordAt i ||| bitOf v else s.wordAt i := by
  rw [← wordAt_extend s (wordOf v + 1) i]
  have hlen : wordOf v < (s.extend (wordOf v + 1)).words.length := by
    rw [length_extend]
    omega
  unfold insert wordAt
  simp only [getD_eq_getElem?_getD, getElem?_modify]
  by_cases hi : i = wordOf v
  · subst hi
    simp [hlen]
  · simp [hi, Ne.symm hi]

theorem wordAt_erase (s : BitSet) (v : UInt32) (i : Nat) :
    (s.erase v).wordAt i = if i = wordOf v then s.wordAt i &&& ~~~bitOf v else s.wordAt i := by
  unfold erase wordAt
  simp only [getD_eq_getElem?_getD, getElem?_modify]
  by_cases hi : i = wordOf v
  · subst hi
    cases s.words[wordOf v]? <;> simp
  · simp [hi, Ne.symm hi]

theorem wordAt_below (s : BitSet) (v : UInt32) (i : Nat) :
    (s.below v).wordAt i =
      if i < wordOf v then s.wordAt i
      else if i = wordOf v then s.wordAt i &&& (bitOf v - 1) else 0 := by
  unfold below wordAt
  simp only [getD_eq_getElem?_getD, getElem?_mapIdx]
  cases s.words[i]? with
  | none => simp
  | some w => rfl

theorem wordAt_union (s t : BitSet) (i : Nat) :
    (s ∪ t).wordAt i = s.wordAt i ||| t.wordAt i := by
  have h1 := wordAt_extend s t.words.length i
  have h2 := wordAt_extend t s.words.length i
  rw [← h1, ← h2]
  have hlen : (s.extend t.words.length).words.length = (t.extend s.words.length).words.length := by
    rw [length_extend, length_extend, Nat.max_comm]
  show (BitSet.mk (zipWith (· ||| ·) _ _)).wordAt i = _
  unfold wordAt
  simp only [getD_eq_getElem?_getD, getElem?_zipWith]
  by_cases hi : i < (s.extend t.words.length).words.length
  · simp [hi, hlen ▸ hi]
  · have hi' : ¬ i < (t.extend s.words.length).words.length := by omega
    simp [getElem?_eq_none (Nat.not_lt.mp hi), getElem?_eq_none (Nat.not_lt.mp hi')]

/-! ## Membership -/

theorem eq_iff_word_and_bit : u = v ↔ wordOf u = wordOf v ∧ u.toNat % 64 = v.toNat % 64 := by
  rw [← UInt32.toNat_inj]
  unfold wordOf
  omega

theorem lt_iff_word_or_bit :
    u < v ↔ wordOf u < wordOf v ∨ (wordOf u = wordOf v ∧ u.toNat % 64 < v.toNat % 64) := by
  rw [UInt32.lt_iff_toNat_lt]
  unfold wordOf
  omega

@[simp] theorem contains_empty (v : UInt32) : (∅ : BitSet).contains v = false := by
  rw [contains_eq]
  exact bit_zero _

@[simp] theorem contains_insert : (s.insert v).contains u ↔ u = v ∨ s.contains u := by
  rw [contains_eq, contains_eq, wordAt_insert, eq_iff_word_and_bit]
  by_cases hw : wordOf u = wordOf v
  · rw [if_pos hw, bit_or, bit_bitOf]
    simp [hw, or_comm]
  · simp [hw]

@[simp] theorem contains_erase : (s.erase v).contains u ↔ u ≠ v ∧ s.contains u := by
  have hk : u.toNat % 64 < 64 := Nat.mod_lt _ (by omega)
  rw [contains_eq, contains_eq, wordAt_erase, ne_eq, eq_iff_word_and_bit]
  by_cases hw : wordOf u = wordOf v
  · rw [if_pos hw, bit_and, bit_not _ hk, bit_bitOf]
    simp [hw, and_comm]
  · simp [hw]

@[simp] theorem contains_below : (s.below v).contains u ↔ u < v ∧ s.contains u := by
  rw [contains_eq, contains_eq, wordAt_below, lt_iff_word_or_bit]
  by_cases hlt : wordOf u < wordOf v
  · simp [hlt]
  · rw [if_neg hlt]
    by_cases hw : wordOf u = wordOf v
    · rw [if_pos hw, bit_and, bit_bitOf_sub_one]
      simp [hw, and_comm]
    · simp [hlt, hw, bit_zero]

@[simp] theorem contains_union : (s ∪ t).contains v ↔ s.contains v ∨ t.contains v := by
  rw [contains_eq, contains_eq, contains_eq, wordAt_union, bit_or]
  simp

theorem subset_iff_wordAt : s.subset t ↔ ∀ i, s.wordAt i &&& ~~~t.wordAt i = 0 := by
  unfold subset
  rw [all_eq_true]
  constructor
  · intro h i
    by_cases hi : i < s.words.length
    · have := h (s.words[i], i) (mk_mem_zipIdx_iff_getElem?.mpr (getElem?_eq_getElem hi))
      simpa [wordAt, getD_eq_getElem?_getD, hi] using this
    · simp [wordAt, getD_eq_getElem?_getD, getElem?_eq_none (Nat.not_lt.mp hi)]
  · rintro h ⟨w, i⟩ hm
    have hw := mk_mem_zipIdx_iff_getElem?.mp hm
    have := h i
    simpa [wordAt, getD_eq_getElem?_getD, hw] using this

theorem contains_of_subset (h : s.subset t) (hv : s.contains v) : t.contains v := by
  have hk : v.toNat % 64 < 64 := Nat.mod_lt _ (by omega)
  have hz := subset_iff_wordAt.mp h (wordOf v)
  rw [contains_eq] at hv ⊢
  have := congrArg (bit · (v.toNat % 64)) hz
  simp only [bit_and, bit_not _ hk, bit_zero, hv, Bool.true_and] at this
  simpa using this

/-! ## Sets without members out of reach -/

/-- All bits that are set stand for 32-bit numbers. -/
def InReach (s : BitSet) : Prop := ∀ i, 2 ^ 26 ≤ i → s.wordAt i = 0

theorem wordOf_lt (v : UInt32) : wordOf v < 2 ^ 26 := by
  have := v.toNat_lt
  unfold wordOf
  omega

/-- Room for numbers is no member. -/
theorem wordAt_ofLargest (n i : Nat) : (ofLargest n).wordAt i = 0 := by
  unfold ofLargest wordAt
  rw [getD_eq_getElem?_getD, getElem?_replicate]
  split <;> rfl

theorem inReach_empty : (∅ : BitSet).InReach := fun _ _ => rfl

theorem InReach.insert (hs : s.InReach) (v : UInt32) : (s.insert v).InReach := by
  intro i hi
  have := wordOf_lt v
  rw [wordAt_insert, if_neg (by omega), hs i hi]

theorem InReach.erase (hs : s.InReach) (v : UInt32) : (s.erase v).InReach := by
  intro i hi
  have := wordOf_lt v
  rw [wordAt_erase, if_neg (by omega), hs i hi]

theorem InReach.below (_ : s.InReach) (v : UInt32) : (s.below v).InReach := by
  intro i hi
  have := wordOf_lt v
  rw [wordAt_below, if_neg (by omega), if_neg (by omega)]

theorem InReach.union (hs : s.InReach) (ht : t.InReach) : (s ∪ t).InReach := by
  intro i hi
  rw [wordAt_union, hs i hi, ht i hi]
  rfl

/-- Of sets that are not included in each other, one has a member that the other lacks. -/
theorem exists_of_not_subset (hs : s.InReach) (h : s.subset t = false) :
    ∃ v, s.contains v ∧ t.contains v = false := by
  by_contra hne
  have hall : ∀ v, s.contains v → t.contains v := by
    intro v hv
    by_contra hv'
    exact hne ⟨v, hv, by simpa using hv'⟩
  have hsub : s.subset t = true := by
    refine subset_iff_wordAt.mpr fun i => eq_zero_of_bit fun k hk => ?_
    rw [bit_and, bit_not _ hk]
    by_cases hi : i < 2 ^ 26
    · have hv : (UInt32.ofNat (64 * i + k)).toNat = 64 * i + k :=
        UInt32.toNat_ofNat_of_lt' (by show _ < 2 ^ 32; omega)
      have := hall (UInt32.ofNat (64 * i + k))
      rw [contains_eq, contains_eq, wordOf, hv, show (64 * i + k) / 64 = i by omega,
        show (64 * i + k) % 64 = k by omega] at this
      cases hb : bit (s.wordAt i) k with
      | false => rfl
      | true => rw [this hb]; rfl
    · rw [hs i (Nat.not_lt.mp hi), bit_zero]
      rfl
  rw [h] at hsub
  cases hsub

/-- The numbers of a word. -/
theorem mem_membersOfWord {w : UInt64} {i : Nat} (hi : i < 2 ^ 26) :
    v ∈ membersOfWord w i ↔ wordOf v = i ∧ bit w (v.toNat % 64) := by
  have hv : ∀ k < 64, (UInt32.ofNat (64 * i + k)).toNat = 64 * i + k := fun k hk =>
    UInt32.toNat_ofNat_of_lt' (by show _ < 2 ^ 32; omega)
  unfold membersOfWord
  split
  next hw =>
    rw [hw, bit_zero]
    simp
  next =>
    rw [mem_filter, and_bitOf_ne_zero, mem_map]
    refine and_congr_left fun _ => ?_
    constructor
    · rintro ⟨k, hk, rfl⟩
      rw [mem_range] at hk
      rw [wordOf, hv k hk]
      omega
    · intro hw
      refine ⟨v.toNat % 64, mem_range.mpr (Nat.mod_lt _ (by omega)), ?_⟩
      rw [← UInt32.toNat_inj, hv _ (Nat.mod_lt _ (by omega)), ← hw, wordOf]
      omega

/-- A word with members is in reach. -/
theorem InReach.index_lt (hs : s.InReach) {w : UInt64} {i : Nat} (hw : s.words[i]? = some w)
    (hv : v ∈ membersOfWord w i) : i < 2 ^ 26 := by
  by_contra hi
  have hz := hs i (Nat.not_lt.mp hi)
  rw [wordAt, getD_eq_getElem?_getD, hw, Option.getD_some] at hz
  simp [membersOfWord, hz] at hv

/-- The row of the members holds every member. -/
theorem mem_toList (hs : s.InReach) : v ∈ s.toList ↔ s.contains v := by
  unfold toList
  rw [mem_flatMap, contains_eq]
  constructor
  · rintro ⟨⟨w, i⟩, hm, hv⟩
    have hw := mk_mem_zipIdx_iff_getElem?.mp hm
    obtain ⟨rfl, hb⟩ := (mem_membersOfWord (hs.index_lt hw hv)).mp hv
    rwa [wordAt, getD_eq_getElem?_getD, hw]
  · intro hb
    have hi : wordOf v < s.words.length := by
      by_contra hi
      rw [wordAt, getD_eq_getElem?_getD, getElem?_eq_none (Nat.not_lt.mp hi)] at hb
      simp [bit_zero] at hb
    refine ⟨(s.words[wordOf v], wordOf v),
      mk_mem_zipIdx_iff_getElem?.mpr (getElem?_eq_getElem hi),
      (mem_membersOfWord (wordOf_lt v)).mpr ⟨rfl, ?_⟩⟩
    rwa [wordAt, getD_eq_getElem?_getD, getElem?_eq_getElem hi] at hb

theorem pairwise_membersOfWord {w : UInt64} {i : Nat} (hi : i < 2 ^ 26) :
    (membersOfWord w i).Pairwise (· < ·) := by
  unfold membersOfWord
  split
  · exact .nil
  · refine Pairwise.filter _ (pairwise_map.mpr ?_)
    refine pairwise_lt_range.imp_of_mem fun {k j} hk hj hlt => ?_
    rw [mem_range] at hk hj
    rw [UInt32.lt_iff_toNat_lt, UInt32.toNat_ofNat_of_lt' (by show _ < 2 ^ 32; omega),
      UInt32.toNat_ofNat_of_lt' (by show _ < 2 ^ 32; omega)]
    omega

/-- The row of the members is in order. -/
theorem pairwise_toList (hs : s.InReach) : s.toList.Pairwise (· < ·) := by
  have hi : ∀ q ∈ s.words.zipIdx, ∀ v ∈ membersOfWord q.1 q.2, q.2 < 2 ^ 26 := fun q hq v hv =>
    hs.index_lt (mk_mem_zipIdx_iff_getElem?.mp hq) hv
  have hindex : s.words.zipIdx.Pairwise fun q r => q.2 < r.2 := by
    have hrange : (s.words.zipIdx.map Prod.snd).Pairwise (· < ·) := by
      rw [zipIdx_map_snd]
      exact pairwise_lt_range'
    exact pairwise_map.mp hrange
  refine pairwise_flatMap.mpr ⟨fun q hq => ?_, ?_⟩
  · show (membersOfWord q.1 q.2).Pairwise (· < ·)
    rcases eq_nil_or_concat (membersOfWord q.1 q.2) with hw | ⟨vs, v, hw⟩
    · rw [hw]
      exact .nil
    · exact pairwise_membersOfWord (hi q hq v (by simp [hw]))
  · refine hindex.imp_of_mem fun {q r} hq hr hlt u hu v hv => ?_
    rw [lt_iff_word_or_bit, ((mem_membersOfWord (hi q hq u hu)).mp hu).1,
      ((mem_membersOfWord (hi r hr v hv)).mp hv).1]
    exact .inl hlt

/-- A set does not have more members than there are numbers. -/
theorem length_toList (hs : s.InReach) : s.toList.length ≤ 2 ^ 32 := by
  have hnodup : (s.toList.map UInt32.toNat).Nodup := by
    refine Pairwise.map _ (fun u v (hlt : u < v) => ?_) (pairwise_toList hs)
    exact Nat.ne_of_lt (UInt32.lt_iff_toNat_lt.mp hlt)
  have hsub : s.toList.map UInt32.toNat ⊆ range (2 ^ 32) := by
    intro n hn
    obtain ⟨v, -, rfl⟩ := mem_map.mp hn
    exact mem_range.mpr v.toNat_lt
  have hle := (subperm_of_subset hnodup hsub).length_le
  rwa [length_map, length_range] at hle

/-! ## Histories

Some bit sets, each made with room of its own, go through a row of operations. They keep standing
for the sets that go through the same operations.
-/

/-- An operation on one of the sets that `ι` names. -/
inductive Action (ι : Type)
  | insert (i : ι) (v : UInt32)
  | erase (i : ι) (v : UInt32)
  | below (i : ι) (v : UInt32)
  | union (i j : ι)

section

variable {ι : Type} [DecidableEq ι] {σ : ι → BitSet} {S : ι → Set UInt32}

/-- What an operation does to bit sets. -/
def perform (σ : ι → BitSet) : Action ι → ι → BitSet
  | .insert i v => Function.update σ i ((σ i).insert v)
  | .erase i v => Function.update σ i ((σ i).erase v)
  | .below i v => Function.update σ i ((σ i).below v)
  | .union i j => Function.update σ i (σ i ∪ σ j)

/-- What it does to sets. -/
def performOnSets (S : ι → Set UInt32) : Action ι → ι → Set UInt32
  | .insert i v => Function.update S i (S i ∪ {v})
  | .erase i v => Function.update S i (S i \ {v})
  | .below i v => Function.update S i {u ∈ S i | u < v}
  | .union i j => Function.update S i (S i ∪ S j)

/-- A bit set has the members of a set, and its bits stand for nothing else. -/
def Represents (s : BitSet) (S : Set UInt32) : Prop := s.InReach ∧ ∀ v, s.contains v ↔ v ∈ S

theorem represents_ofLargest (n : Nat) : (ofLargest n).Represents ∅ := by
  refine ⟨fun i _ => wordAt_ofLargest n i, fun v => ?_⟩
  rw [contains_eq, wordAt_ofLargest, bit_zero]
  simp

theorem Represents.perform (h : ∀ i, (σ i).Represents (S i)) (a : Action ι) (i : ι) :
    (perform σ a i).Represents (performOnSets S a i) := by
  have hupdate : ∀ {j : ι} {s : BitSet} {T : Set UInt32}, s.Represents T →
      (Function.update σ j s i).Represents (Function.update S j T i) := by
    intro j s T hs
    by_cases hj : i = j
    · subst hj
      simpa using hs
    · simpa [hj] using h i
  cases a with
  | insert j v => exact hupdate ⟨(h j).1.insert v, fun u => by simp [(h j).2]⟩
  | erase j v => exact hupdate ⟨(h j).1.erase v, fun u => by simp [(h j).2, and_comm]⟩
  | below j v => exact hupdate ⟨(h j).1.below v, fun u => by simp [(h j).2, and_comm]⟩
  | union j k => exact hupdate ⟨(h j).1.union (h k).1, fun u => by simp [(h j).2, (h k).2]⟩

theorem Represents.foldl (h : ∀ i, (σ i).Represents (S i)) (as : List (Action ι)) (i : ι) :
    (as.foldl BitSet.perform σ i).Represents (as.foldl performOnSets S i) := by
  induction as generalizing σ S with
  | nil => exact h i
  | cons a as ih => exact ih (Represents.perform h a)

theorem Represents.mem_toList {T : Set UInt32} (h : s.Represents T) : v ∈ s.toList ↔ v ∈ T :=
  (BitSet.mem_toList h.1).trans (h.2 v)

/-- A union says that it adds members if it does. -/
theorem Represents.grows_iff {T U : Set UInt32} (hs : s.Represents T) (ht : t.Represents U) :
    (!t.subset s) = true ↔ T ∪ U ≠ T := by
  rw [Bool.not_eq_true', ne_eq, Set.union_eq_left]
  constructor
  · intro h hsub
    obtain ⟨v, hv, hnot⟩ := exists_of_not_subset ht.1 h
    rw [(hs.2 v).mpr (hsub ((ht.2 v).mp hv))] at hnot
    cases hnot
  · intro h
    refine Bool.eq_false_iff.mpr fun hsub => h fun v hv => ?_
    exact (hs.2 v).mp (contains_of_subset hsub ((ht.2 v).mpr hv))

/-- **Bit sets are sets.** After any row of operations on any number of bit sets, each has the members
of the set that went through the same operations, its row of members is that set in increasing
order, and a union of any two of them says whether the first one gains a member. So none of this
depends on the room that they were made with. -/
theorem history_represents (room : ι → Nat) (as : List (Action ι)) :
    let sets := as.foldl performOnSets fun _ => ∅
    let run (room : ι → Nat) := as.foldl perform fun i => ofLargest (room i)
    (∀ i v, (run room i).contains v ↔ v ∈ sets i) ∧
    (∀ i, (run room i).toList.Pairwise (· < ·) ∧ ∀ v, v ∈ (run room i).toList ↔ v ∈ sets i) ∧
    (∀ i j, (!(run room j).subset (run room i)) = true ↔ sets i ∪ sets j ≠ sets i) ∧
    ∀ other i j, (run other i).contains = (run room i).contains ∧
      (run other i).toList = (run room i).toList ∧
      (run other j).subset (run other i) = (run room j).subset (run room i) := by
  intro sets run
  have h : ∀ room i, (run room i).Represents (sets i) := fun room =>
    Represents.foldl (fun i => represents_ofLargest (room i)) as
  have horder := fun room i => pairwise_toList (h room i).1
  refine ⟨fun i => (h room i).2, fun i => ⟨horder room i, fun v => (h room i).mem_toList⟩,
    fun i j => (h room i).grows_iff (h room j), fun other i j => ⟨?_, ?_, ?_⟩⟩
  · exact funext fun v => Bool.eq_iff_iff.mpr (((h other i).2 v).trans ((h room i).2 v).symm)
  · refine (horder other i).eq_of_mem_iff (horder room i) fun v => ?_
    exact (h other i).mem_toList.trans (h room i).mem_toList.symm
  · refine Bool.not_inj (Bool.eq_iff_iff.mpr ?_)
    exact ((h other i).grows_iff (h other j)).trans ((h room i).grows_iff (h room j)).symm

end

end BitSet

end Resumable
