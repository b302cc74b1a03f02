import Resumable.Proofs.Quicksort.Basic

/-!
# Heaps

A heap is a row in which no element is less than one of its two children. Letting an element sink
mends a heap at one place, so a heap can be built from its leaves on, and stays one while its greatest
element is taken out again and again.
-/

namespace Resumable

open List

namespace Quicksort

variable {α : Type} {less : α → α → Bool} {a b : Array α} {i j : Nat}

/-! ## Elements of a row -/

theorem lessAt_congr {i j i' j' : Nat} (hi : a[i]? = b[i']?) (hj : a[j]? = b[j']?) :
    lessAt less a i j = lessAt less b i' j' := by
  unfold lessAt
  rw [hi, hj]

theorem lessAt_swapIfInBounds (hi : i < a.size) (hj : j < a.size) (p q : Nat) :
    lessAt less (a.swapIfInBounds i j) p q = lessAt less a (exchanged i j p) (exchanged i j q) :=
  lessAt_congr (getElem?_swapIfInBounds hi hj p) (getElem?_swapIfInBounds hi hj q)

theorem lessAt_eq (hi : i < a.size) (hj : j < a.size) :
    lessAt less a i j = less a[i] a[j] := by
  unfold lessAt
  rw [Array.getElem?_eq_getElem hi, Array.getElem?_eq_getElem hj]

theorem size_of_lessAt (h : lessAt less a i j = true) : i < a.size ∧ j < a.size := by
  unfold lessAt at h
  split at h
  next hx hy => exact ⟨(Array.getElem?_eq_some_iff.mp hx).1, (Array.getElem?_eq_some_iff.mp hy).1⟩
  next => cases h

theorem Order.lessAt_asymm (h : Order less) (hij : lessAt less a i j = true) :
    lessAt less a j i = false := by
  obtain ⟨hi, hj⟩ := size_of_lessAt hij
  rw [lessAt_eq hi hj] at hij
  rw [lessAt_eq hj hi]
  exact h.asymm hij

theorem Order.lessAt_irrefl (h : Order less) (i : Nat) : lessAt less a i i = false := by
  cases hi : lessAt less a i i with
  | false => rfl
  | true => exact absurd (h.lessAt_asymm hi) (by simp [hi])

/-- Not to be less is transitive, with an element in the middle. -/
theorem Order.lessAt_trans (h : Order less) {i j k : Nat} (hj : j < a.size)
    (hji : lessAt less a j i = false) (hkj : lessAt less a k j = false) :
    lessAt less a k i = false := by
  cases hki : lessAt less a k i with
  | false => rfl
  | true =>
    obtain ⟨hk, hi⟩ := size_of_lessAt hki
    rw [lessAt_eq hj hi] at hji
    rw [lessAt_eq hk hj] at hkj
    rw [← hki, lessAt_eq hk hi]
    exact h.trans hji hkj

/-! ## Letting an element sink -/

/-- The two places below a place. -/
def Child (p c : Nat) : Prop := c = 2 * p + 1 ∨ c = 2 * p + 2

/-- From place `start` on, no element of the first `size` is less than one of its children. -/
def Heap (less : α → α → Bool) (a : Array α) (size start : Nat) : Prop :=
  ∀ p c, start ≤ p → Child p c → c < size → lessAt less a p c = false

/-- A heap but for the element at `root`, which may be too small. What stands above it is not less than
what stands below. -/
structure HeapBut (less : α → α → Bool) (a : Array α) (size start root : Nat) : Prop where
  others : ∀ p c, start ≤ p → p ≠ root → Child p c → c < size → lessAt less a p c = false
  above : ∀ p c, start ≤ p → Child p root → Child root c → c < size → lessAt less a p c = false

/-- The greater one of the children. -/
theorem greater_child (h : Order less) {size root : Nat} (hleft : 2 * root + 1 < size) :
    ∃ c, (if 2 * root + 1 + 1 < size && lessAt less a (2 * root + 1) (2 * root + 1 + 1)
        then 2 * root + 1 + 1 else 2 * root + 1) = c ∧ Child root c ∧ c < size ∧
      ∀ d, Child root d → d < size → lessAt less a c d = false := by
  split
  next hright =>
    rw [Bool.and_eq_true, decide_eq_true_eq] at hright
    refine ⟨_, rfl, .inr rfl, hright.1, ?_⟩
    rintro d (rfl | rfl) hd
    · exact h.lessAt_asymm hright.2
    · exact h.lessAt_irrefl _
  next hright =>
    rw [Bool.and_eq_true, decide_eq_true_eq, not_and, Bool.not_eq_true] at hright
    refine ⟨_, rfl, .inl rfl, hleft, ?_⟩
    rintro d (rfl | rfl) hd
    · exact h.lessAt_irrefl _
    · exact hright hd

/-- An exchange with the greater child moves the place that is to be mended down. -/
theorem HeapBut.exchange (h : Order less) {size start root c : Nat} (hsize : size ≤ a.size)
    (hheap : HeapBut less a size start root) (hroot : start ≤ root) (hchild : Child root c)
    (hc : c < size) (hgreatest : ∀ d, Child root d → d < size → lessAt less a c d = false)
    (hless : lessAt less a root c = true) :
    HeapBut less (a.swapIfInBounds root c) size start c := by
  have hrc : root < c := by unfold Child at hchild; omega
  have hlt : root < a.size ∧ c < a.size := ⟨by omega, by omega⟩
  constructor
  · intro p d hp hne hpd hd
    rw [lessAt_swapIfInBounds hlt.1 hlt.2]
    by_cases hpr : p = root
    · subst hpr
      rw [exchanged, if_pos rfl]
      by_cases hdc : d = c
      · subst hdc
        rw [exchanged, if_neg (by omega), if_pos rfl]
        exact h.lessAt_asymm hless
      · have hdp : d ≠ p := by unfold Child at hpd; omega
        rw [exchanged, if_neg hdp, if_neg hdc]
        exact hgreatest d hpd hd
    · rw [exchanged, if_neg hpr, if_neg hne]
      by_cases hdr : d = root
      · subst hdr
        rw [exchanged, if_pos rfl]
        exact hheap.above p c hp hpd hchild hc
      · have hdc : d ≠ c := by unfold Child at hpd hchild; omega
        rw [exchanged, if_neg hdr, if_neg hdc]
        exact hheap.others p d hp hpr hpd hd
  · intro p d hp hpc hcd hd
    obtain rfl : p = root := by unfold Child at hpc hchild; omega
    have hne : d ≠ p ∧ d ≠ c := by unfold Child at hcd; omega
    rw [lessAt_swapIfInBounds hlt.1 hlt.2, exchanged, if_pos rfl, exchanged, if_neg hne.1, if_neg hne.2]
    exact hheap.others c d (by omega) (by omega) hcd hd

/-- **An element that sinks mends the heap.** -/
theorem heap_sink (h : Order less) {size start most root : Nat} (hsize : size ≤ a.size)
    (hmost : size ≤ root + most) (hroot : start ≤ root) (hheap : HeapBut less a size start root) :
    Heap less (sink less size most root a) size start := by
  induction most generalizing root a with
  | zero =>
    intro p c hp hpc hc
    refine hheap.others p c hp ?_ hpc hc
    unfold Child at hpc
    omega
  | succ most ih =>
    unfold sink
    dsimp only
    split
    next hleft =>
      intro p c hp hpc hc
      refine hheap.others p c hp ?_ hpc hc
      unfold Child at hpc
      omega
    next hleft =>
      obtain ⟨c, hc, hchild, hlt, hgreatest⟩ := greater_child h (a := a) (Nat.lt_of_not_le hleft)
      rw [hc]
      have hrc : root < c := by unfold Child at hchild; omega
      split
      next hless =>
        refine ih (by rwa [size_swapIfInBounds]) (by omega) (by omega) ?_
        exact hheap.exchange h hsize hroot hchild hlt hgreatest hless
      next hless =>
        rw [Bool.not_eq_true] at hless
        intro p d hp hpd hd
        by_cases hpr : p = root
        · subst hpr
          exact h.lessAt_trans (Nat.lt_of_lt_of_le hlt hsize) (hgreatest d hpd hd) hless
        · exact hheap.others p d hp hpr hpd hd

/-! ## What stays where it is -/

/-- A row that comes from another by exchanges among its first `size` elements. -/
structure Moved (size : Nat) (a b : Array α) : Prop where
  size_eq : b.size = a.size
  perm : b.toList.Perm a.toList
  behind : ∀ i, size ≤ i → b[i]? = a[i]?
  front : ∀ i, i < size → ∃ j, j < size ∧ b[i]? = a[j]?

theorem Moved.refl (size : Nat) (a : Array α) : Moved size a a :=
  ⟨rfl, .refl _, fun _ _ => rfl, fun i hi => ⟨i, hi, rfl⟩⟩

theorem Moved.trans {size : Nat} {c : Array α} (h : Moved size a b) (h' : Moved size b c) :
    Moved size a c where
  size_eq := h'.size_eq.trans h.size_eq
  perm := h'.perm.trans h.perm
  behind i hi := (h'.behind i hi).trans (h.behind i hi)
  front i hi := by
    obtain ⟨j, hj, hij⟩ := h'.front i hi
    obtain ⟨k, hk, hjk⟩ := h.front j hj
    exact ⟨k, hk, hij.trans hjk⟩

theorem moved_swapIfInBounds {size i j : Nat} (hi : i < size) (hj : j < size) (hsize : size ≤ a.size) :
    Moved size a (a.swapIfInBounds i j) where
  size_eq := size_swapIfInBounds a i j
  perm := swapIfInBounds_perm a i j
  behind k hk := by
    rw [getElem?_swapIfInBounds (by omega) (by omega), exchanged, if_neg (by omega), if_neg (by omega)]
  front k hk := by
    refine ⟨exchanged i j k, ?_, getElem?_swapIfInBounds (by omega) (by omega) k⟩
    unfold exchanged
    split <;> [exact hj; split <;> [exact hi; exact hk]]

theorem moved_sink (less : α → α → Bool) {size : Nat} (most root : Nat) (hsize : size ≤ a.size) :
    Moved size a (sink less size most root a) := by
  induction most generalizing root a with
  | zero => exact .refl size a
  | succ most ih =>
    unfold sink
    dsimp only
    split
    next => exact .refl size a
    next hleft =>
      have hchild : (if 2 * root + 1 + 1 < size && lessAt less a (2 * root + 1) (2 * root + 1 + 1)
          then 2 * root + 1 + 1 else 2 * root + 1) < size := by
        split
        next hright => exact of_decide_eq_true (Bool.and_eq_true_iff.mp hright).1
        next => omega
      generalize (if 2 * root + 1 + 1 < size && lessAt less a (2 * root + 1) (2 * root + 1 + 1)
        then 2 * root + 1 + 1 else 2 * root + 1) = c at hchild ⊢
      split
      next hless =>
        refine (moved_swapIfInBounds (by omega) hchild hsize).trans (ih _ ?_)
        rwa [size_swapIfInBounds]
      next => exact .refl size a

/-! ## Sorting -/

/-- The first steps of building a heap leave a heap from a place on. -/
theorem heap_foldl (h : Order less) {start : Nat} (hheap : Heap less a a.size start) :
    let b := (range start).reverse.foldl (fun a i => sink less a.size a.size i a) a
    Moved a.size a b ∧ Heap less b b.size 0 := by
  induction start generalizing a with
  | zero => exact ⟨.refl _ a, hheap⟩
  | succ start ih =>
    rw [range_succ, reverse_append, reverse_singleton, singleton_append,
      foldl_cons]
    have hmoved := moved_sink less a.size start (Nat.le_refl a.size)
    have hsink : Heap less (sink less a.size a.size start a) a.size start := by
      refine heap_sink h (Nat.le_refl _) (by omega) (Nat.le_refl _) ⟨fun p c hp hne => ?_, ?_⟩
      · exact hheap p c (by omega)
      · intro p c hp hpc
        unfold Child at hpc
        omega
    obtain ⟨hmoved', hheap'⟩ := ih (by rwa [hmoved.size_eq])
    rw [hmoved.size_eq] at hmoved'
    exact ⟨hmoved.trans hmoved', hheap'⟩

theorem heap_heapOf (h : Order less) (a : Array α) :
    Moved a.size a (heapOf less a) ∧ Heap less (heapOf less a) a.size 0 := by
  have hleaves : Heap less a a.size ((a.size - 1) / 2 + 1) := by
    intro p c hp hpc hc
    unfold Child at hpc
    omega
  obtain ⟨hmoved, hheap⟩ := heap_foldl h hleaves
  exact ⟨hmoved, hmoved.size_eq ▸ hheap⟩

/-- The greatest element of a heap stands at its root. -/
theorem Heap.root (h : Order less) {size : Nat} (hsize : size ≤ a.size) (hheap : Heap less a size 0)
    (hi : i < size) : lessAt less a 0 i = false := by
  induction i using Nat.strongRecOn with
  | _ i ih =>
    cases i with
    | zero => exact h.lessAt_irrefl 0
    | succ i =>
      have hparent : Child (i / 2) (i + 1) := by unfold Child; omega
      exact h.lessAt_trans (by omega) (hheap _ _ (Nat.zero_le _) hparent hi)
        (ih (i / 2) (by omega) (by omega))

/-- A heap in front of a row that is in order, with none in the heap greater than one behind it. -/
structure Drained (less : α → α → Bool) (a : Array α) (size : Nat) : Prop where
  heap : Heap less a size 0
  sorted : ∀ i j, size ≤ i → i < j → lessAt less a j i = false
  cross : ∀ i j, i < size → size ≤ j → lessAt less a j i = false

/-- Taking the greatest element out of the heap. -/
theorem Drained.step (h : Order less) {size : Nat} (hsize : size < a.size)
    (hdrained : Drained less a (size + 1)) :
    Drained less (sink less size size 0 (a.swapIfInBounds 0 size)) size := by
  have hswap := getElem?_swapIfInBounds (a := a) (i := 0) (j := size) (by omega) hsize
  have hlast : (a.swapIfInBounds 0 size)[size]? = a[0]? := by
    rw [hswap, exchanged]
    split
    next heq => rw [heq]
    next => rw [if_pos rfl]
  have hbehind (j : Nat) (hj : size < j) : (a.swapIfInBounds 0 size)[j]? = a[j]? := by
    rw [hswap, exchanged, if_neg (by omega), if_neg (by omega)]
  have hmoved : Moved size (a.swapIfInBounds 0 size) (sink less size size 0 (a.swapIfInBounds 0 size)) :=
    moved_sink less size 0 (by rw [size_swapIfInBounds]; omega)
  have hroot (i : Nat) (hi : i < size + 1) : lessAt less a 0 i = false := hdrained.heap.root h hsize hi
  refine ⟨?_, fun i j hi hij => ?_, fun i j hi hj => ?_⟩
  · refine heap_sink h (by rw [size_swapIfInBounds]; omega) (by omega) (Nat.le_refl 0) ⟨?_, ?_⟩
    · intro p c hp hne hpc hc
      have hpc' : p < c := by unfold Child at hpc; omega
      rw [lessAt_swapIfInBounds (by omega) hsize, exchanged, if_neg hne, if_neg (by omega), exchanged,
        if_neg (by omega), if_neg (by omega)]
      exact hdrained.heap p c hp hpc (by omega)
    · intro p c hp hpc
      unfold Child at hpc
      omega
  · have hj : (sink less size size 0 (a.swapIfInBounds 0 size))[j]? = a[j]? :=
      (hmoved.behind j (by omega)).trans (hbehind j (by omega))
    rcases Nat.eq_or_lt_of_le hi with rfl | hlt
    · rw [lessAt_congr hj ((hmoved.behind size (Nat.le_refl _)).trans hlast)]
      exact hdrained.cross 0 j (by omega) hij
    · rw [lessAt_congr hj ((hmoved.behind i hi).trans (hbehind i hlt))]
      exact hdrained.sorted i j hlt hij
  · obtain ⟨k, hk, hik⟩ := hmoved.front i hi
    have hk' : exchanged 0 size k < size + 1 := by
      unfold exchanged
      split <;> [omega; split <;> omega]
    rcases Nat.eq_or_lt_of_le hj with rfl | hlt
    · rw [lessAt_congr ((hmoved.behind size (Nat.le_refl _)).trans hlast) (hik.trans (hswap k))]
      exact hroot _ hk'
    · rw [lessAt_congr ((hmoved.behind j hj).trans (hbehind j hlt)) (hik.trans (hswap k))]
      exact hdrained.cross _ j hk' hlt

theorem drained_foldl (h : Order less) {size : Nat} (hsize : size ≤ a.size)
    (hdrained : Drained less a size) :
    let b := (range size).reverse.foldl
      (fun a i => sink less i i 0 (a.swapIfInBounds 0 i)) a
    b.toList.Perm a.toList ∧ Drained less b 0 := by
  induction size generalizing a with
  | zero => exact ⟨.refl _, hdrained⟩
  | succ size ih =>
    rw [range_succ, reverse_append, reverse_singleton, singleton_append,
      foldl_cons]
    have hmoved : Moved size (a.swapIfInBounds 0 size)
        (sink less size size 0 (a.swapIfInBounds 0 size)) :=
      moved_sink less size 0 (by rw [size_swapIfInBounds]; omega)
    have hsize' : size ≤ (sink less size size 0 (a.swapIfInBounds 0 size)).size := by
      rw [hmoved.size_eq, size_swapIfInBounds]
      omega
    obtain ⟨hperm, hdone⟩ := ih hsize' (hdrained.step h hsize)
    exact ⟨hperm.trans (hmoved.perm.trans (swapIfInBounds_perm a 0 size)), hdone⟩

/-- **Heapsort sorts.** -/
theorem heapsort_sorts (h : Order less) (xs : List α) :
    (heapsort less xs).Perm xs ∧ Sorted less (heapsort less xs) := by
  obtain ⟨hmoved, hheap⟩ := heap_heapOf h xs.toArray
  have hlength : xs.length = (heapOf less xs.toArray).size := by
    rw [hmoved.size_eq, size_toArray]
  have hstart : Drained less (heapOf less xs.toArray) xs.length := by
    refine ⟨by rwa [size_toArray] at hheap, fun i j hi hij => ?_, fun i j hi hj => ?_⟩
    all_goals
      unfold lessAt
      rw [Array.getElem?_eq_none (i := j) (by omega)]
  obtain ⟨hperm, hdone⟩ := drained_foldl h (Nat.le_of_eq hlength) hstart
  refine ⟨hperm.trans hmoved.perm, pairwise_iff_getElem.mpr fun i j hi hj hij => ?_⟩
  have hij := hdone.sorted i j (Nat.zero_le i) hij
  unfold heapsort at hi hj
  rw [Array.length_toList] at hi hj
  rwa [lessAt_eq hj hi] at hij

end Quicksort

end Resumable
