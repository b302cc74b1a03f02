import Mathlib.Data.List.Basic
import Mathlib.Order.Basic
import Resumable.Quicksort

/-!
# Rows in order

Rows are sorted by a test that tells which of two elements is less. Elements of which neither is less
may stand in any order. Sorting by insertion is proved here, and what the parts of quicksort do that
move elements about.
-/

namespace Resumable

open List

namespace Quicksort

/-- A test by which rows can be sorted: not to be less is transitive. -/
structure Order {α : Type} (less : α → α → Bool) : Prop where
  asymm : ∀ {a b}, less a b = true → less b a = false
  trans : ∀ {a b c}, less b a = false → less c b = false → less c a = false

/-- A row in order: none is less than one before it. -/
def Sorted {α : Type} (less : α → α → Bool) (xs : List α) : Prop :=
  xs.Pairwise fun a b => less b a = false

variable {α : Type} {less : α → α → Bool}

theorem Order.irrefl (h : Order less) (a : α) : less a a = false := by
  cases ha : less a a with
  | false => rfl
  | true => exact absurd (h.asymm ha) (by simp [ha])

/-! ## Insertion -/

theorem insertDown_perm (x : α) (xs : List α) : (insertDown less x xs).Perm (x :: xs) := by
  induction xs with
  | nil => exact .refl _
  | cons y xs ih =>
    unfold insertDown
    split
    · exact (ih.cons y).trans (.swap x y xs)
    · exact .refl _

/-- A row with its greatest element first stays so. -/
theorem sorted_insertDown (h : Order less) {x : α} {xs : List α}
    (hxs : xs.Pairwise fun a b => less a b = false) :
    (insertDown less x xs).Pairwise fun a b => less a b = false := by
  induction xs with
  | nil => exact pairwise_singleton _ x
  | cons y xs ih =>
    obtain ⟨hy, hrest⟩ := pairwise_cons.mp hxs
    unfold insertDown
    split
    next hxy =>
      refine pairwise_cons.mpr ⟨fun z hz => ?_, ih hrest⟩
      rcases mem_cons.mp ((insertDown_perm x xs).mem_iff.mp hz) with rfl | hz
      · exact h.asymm hxy
      · exact hy z hz
    next hxy =>
      rw [Bool.not_eq_true] at hxy
      refine pairwise_cons.mpr ⟨fun z hz => ?_, hxs⟩
      rcases mem_cons.mp hz with rfl | hz
      · exact hxy
      · exact h.trans (hy z hz) hxy

theorem insertion_perm (xs : List α) : (insertion less xs).Perm xs := by
  have hfold (xs done : List α) :
      (xs.foldl (fun done x => insertDown less x done) done).Perm (xs ++ done) := by
    induction xs generalizing done with
    | nil => exact .refl _
    | cons x xs ih =>
      refine (ih _).trans ?_
      exact ((insertDown_perm x done).append_left xs).trans perm_middle
  have h := hfold xs []
  rw [append_nil] at h
  exact (reverse_perm _).trans h

theorem sorted_insertion (h : Order less) (xs : List α) : Sorted less (insertion less xs) := by
  have hfold (xs done : List α) (hdone : done.Pairwise fun a b => less a b = false) :
      (xs.foldl (fun done x => insertDown less x done) done).Pairwise
        fun a b => less a b = false := by
    induction xs generalizing done with
    | nil => exact hdone
    | cons x xs ih => exact ih _ (sorted_insertDown h hdone)
  exact pairwise_reverse.mpr (hfold xs [] .nil)

/-- A row in order is not changed. -/
theorem insertion_of_sorted {xs : List α} (hxs : Sorted less xs) : insertion less xs = xs := by
  have hfold (xs done : List α) (hall : Sorted less (done.reverse ++ xs)) :
      xs.foldl (fun done x => insertDown less x done) done = (done.reverse ++ xs).reverse := by
    induction xs generalizing done with
    | nil => simp
    | cons x xs ih =>
      have hstep : insertDown less x done = x :: done := by
        cases done with
        | nil => rfl
        | cons y done =>
          have hxy : less x y = false :=
            pairwise_append.mp hall |>.2.2 y (by simp) x mem_cons_self
          rw [insertDown, if_neg (by simp [hxy])]
      rw [foldl_cons, hstep, ih]
      · simp
      · simpa using hall
  rw [insertion, hfold xs [] hxs]
  simp

/-! ## Exchanges -/

theorem swapIfInBounds_perm (a : Array α) (i j : Nat) : (a.swapIfInBounds i j).toList.Perm a.toList := by
  unfold Array.swapIfInBounds
  split
  · split
    · exact (Array.swap_perm _ _).toList
    · exact .refl _
  · exact .refl _

theorem size_swapIfInBounds (a : Array α) (i j : Nat) : (a.swapIfInBounds i j).size = a.size := by
  simp

/-- Where the element comes from that stands at `k` after an exchange. -/
def exchanged (i j k : Nat) : Nat := if k = i then j else if k = j then i else k

theorem getElem?_swapIfInBounds {a : Array α} {i j : Nat} (hi : i < a.size) (hj : j < a.size) (k : Nat) :
    (a.swapIfInBounds i j)[k]? = a[exchanged i j k]? := by
  unfold Array.swapIfInBounds exchanged
  rw [dif_pos hi, dif_pos hj, Array.getElem?_swap]
  grind

end Quicksort

end Resumable
