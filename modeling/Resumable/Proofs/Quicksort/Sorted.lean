import Mathlib.Data.List.TakeWhile
import Resumable.Proofs.Quicksort.Heap

/-!
# Quicksort sorts

What comes out is the row that went in, in another order, and it is in order. A row that is in order
already comes out as it is, whichever elements are equal.
-/

namespace Resumable

open List

namespace Quicksort

variable {α : Type} {less : α → α → Bool}

/-! ## Rows that are nearly in order -/

theorem advance_append (less : α → α → Bool) (behind ahead : List α) :
    (advance less behind ahead).1.reverse ++ (advance less behind ahead).2 =
      behind.reverse ++ ahead := by
  fun_induction advance less behind ahead with
  | case1 => rfl
  | case2 y ahead ih => simpa using ih
  | case3 => rfl
  | case4 x behind y ahead hxy ih => simpa using ih

theorem sorted_advance (h : Order less) {behind : List α} (ahead : List α)
    (hbehind : behind.Pairwise fun a b => less a b = false) :
    (advance less behind ahead).1.Pairwise fun a b => less a b = false := by
  fun_induction advance less behind ahead with
  | case1 => exact hbehind
  | case2 y ahead ih => exact ih (pairwise_singleton _ y)
  | case3 => exact hbehind
  | case4 x behind y ahead hxy ih =>
    rw [Bool.not_eq_true] at hxy
    refine ih (pairwise_cons.mpr ⟨fun z hz => ?_, hbehind⟩)
    rcases mem_cons.mp hz with rfl | hz
    · exact hxy
    · exact h.trans ((pairwise_cons.mp hbehind).1 z hz) hxy

theorem mend_sorts (h : Order less) (long : Bool) (most : Nat) (behind ahead : List α)
    (hbehind : behind.Pairwise fun a b => less a b = false) :
    (mend less long most behind ahead).2.Perm (behind.reverse ++ ahead) ∧
      ((mend less long most behind ahead).1 = true →
        Sorted less (mend less long most behind ahead).2) := by
  induction most generalizing behind ahead with
  | zero => exact ⟨.refl _, fun hdone => nomatch hdone⟩
  | succ most ih =>
    have hrow := advance_append less behind ahead
    have hsorted := sorted_advance h ahead hbehind
    unfold mend
    split
    next x behind' y ahead' hadvance =>
      rw [hadvance] at hrow hsorted
      rw [← hrow]
      split
      next =>
        obtain ⟨hperm, hdone⟩ := ih (insertDown less y behind')
          (ahead'.takeWhile (less · x) ++ x :: ahead'.dropWhile (less · x))
          (sorted_insertDown h (pairwise_cons.mp hsorted).2)
        refine ⟨hperm.trans ?_, hdone⟩
        have hy : (insertDown less y behind').reverse.Perm (y :: behind') :=
          (reverse_perm _).trans (insertDown_perm y behind')
        have hx : (ahead'.takeWhile (less · x) ++ x :: ahead'.dropWhile (less · x)).Perm
            (x :: ahead') := by
          refine perm_middle.trans ?_
          rw [takeWhile_append_dropWhile]
        refine (hy.append hx).trans ?_
        have hback : (x :: behind').reverse.Perm (x :: behind') := reverse_perm _
        refine .trans ?_ (hback.append_right (y :: ahead')).symm
        rw [cons_append, cons_append]
        refine (perm_middle.cons y).trans ((Perm.swap x y _).trans ?_)
        exact (perm_middle.symm.cons x)
      next => exact ⟨.refl _, fun hdone => nomatch hdone⟩
    next behind' ahead' _ hadvance =>
      rw [hadvance] at hrow hsorted
      refine ⟨by rw [hrow], fun hdone => ?_⟩
      obtain rfl := List.isEmpty_iff.mp hdone
      rw [append_nil]
      exact pairwise_reverse.mpr hsorted

/-- A row in order is found to be so. -/
theorem mend_of_sorted {long : Bool} {most : Nat} {xs : List α} (hxs : Sorted less xs) :
    mend less long (most + 1) [] xs = (true, xs) := by
  have hadvance (behind ahead : List α) (hall : Sorted less (behind.reverse ++ ahead)) :
      advance less behind ahead = ((behind.reverse ++ ahead).reverse, []) := by
    fun_induction advance less behind ahead with
    | case1 => simp
    | case2 y ahead ih => simpa using ih (by simpa using hall)
    | case3 x behind y ahead hxy =>
      have := (pairwise_append.mp hall).2.2 x (by simp) y mem_cons_self
      simp [this] at hxy
    | case4 x behind y ahead hxy ih => simpa using ih (by simpa using hall)
  unfold mend
  rw [hadvance [] xs hxs]
  simp

/-! ## Separation -/

theorem misplaced_append (front : α → Bool) (xs : List α) :
    xs.takeWhile front ++ (misplaced front xs ++
      ((xs.dropWhile front).reverse.takeWhile fun x => !front x).reverse) = xs := by
  rw [misplaced, ← reverse_append, takeWhile_append_dropWhile, reverse_reverse,
    takeWhile_append_dropWhile]

theorem head_misplaced {front : α → Bool} {xs rest : List α} {x : α}
    (h : misplaced front xs = x :: rest) : front x = false := by
  have hdrop := misplaced_append front xs
  rw [h] at hdrop
  have hrow : xs.dropWhile front = x :: (rest ++
      ((xs.dropWhile front).reverse.takeWhile fun x => !front x).reverse) := by
    refine (append_right_inj (xs.takeWhile front)).mp ?_
    rw [takeWhile_append_dropWhile]
    exact hdrop.symm
  have := head?_dropWhile_not front xs
  rw [hrow] at this
  simpa using this

theorem last_misplaced {front : α → Bool} {xs rest : List α} {y : α}
    (h : misplaced front xs = rest ++ [y]) : front y = true := by
  have hrow : (xs.dropWhile front).reverse.dropWhile (fun x => !front x) = y :: rest.reverse := by
    rw [misplaced] at h
    rw [← reverse_reverse (dropWhile _ _), h]
    simp
  have := head?_dropWhile_not (fun x => !front x) (xs.dropWhile front).reverse
  rw [hrow] at this
  simpa using this

/-- **A row is separated** into what belongs to the front and what does not. -/
theorem separate_spec (front : α → Bool) {most : Nat} {xs : List α} (hmost : xs.length ≤ most) :
    ((separate front most xs).1 ++ (separate front most xs).2).Perm xs ∧
      (∀ x ∈ (separate front most xs).1, front x = true) ∧
      ∀ x ∈ (separate front most xs).2, front x = false := by
  induction most generalizing xs with
  | zero =>
    obtain rfl := length_eq_zero_iff.mp (Nat.le_zero.mp hmost)
    exact ⟨.refl _, fun _ hx => (nomatch hx), fun _ hx => nomatch hx⟩
  | succ most ih =>
    have hrow := misplaced_append front xs
    have hbefore : ∀ x ∈ xs.takeWhile front, front x = true := fun x => mem_takeWhile_imp
    have hafter : ∀ x ∈ ((xs.dropWhile front).reverse.takeWhile fun x => !front x).reverse,
        front x = false := by
      intro x hx
      simpa using mem_takeWhile_imp (mem_reverse.mp hx)
    unfold separate
    dsimp only
    generalize xs.takeWhile front = before at hrow hbefore ⊢
    generalize ((xs.dropWhile front).reverse.takeWhile fun x => !front x).reverse = after
      at hrow hafter ⊢
    split
    next hmisplaced =>
      rw [hmisplaced, nil_append] at hrow
      exact ⟨by rw [hrow], hbefore, hafter⟩
    next x rest hmisplaced =>
      have hx := head_misplaced hmisplaced
      rw [hmisplaced] at hrow
      split
      next hlast =>
        obtain rfl := getLast?_eq_none_iff.mp hlast
        exact ⟨by rw [← hrow]; exact .refl _, hbefore, forall_mem_cons.mpr ⟨hx, hafter⟩⟩
      next y hlast =>
        obtain ⟨middle, rfl⟩ := getLast?_eq_some_iff.mp hlast
        have hy : front y = true := 
          last_misplaced (show misplaced front xs = (x :: middle) ++ [y] from hmisplaced)
        rw [dropLast_concat]
        have hlength : middle.length ≤ most := by
          rw [← hrow] at hmost
          simp only [length_append, length_cons, length_nil] at hmost
          omega
        obtain ⟨hperm, hfront, hback⟩ := ih hlength
        refine ⟨?_, ?_, ?_⟩
        · rw [← hrow]
          generalize (separate front most middle).1 = fs at hperm ⊢
          generalize (separate front most middle).2 = bs at hperm ⊢
          have hmiddle : (y :: fs ++ (bs ++ [x])).Perm (x :: (middle ++ [y])) := by
            have := (hperm.cons y).append_right [x]
            rw [cons_append, ← append_assoc, ← cons_append]
            refine this.trans ?_
            refine perm_append_comm.trans ?_
            have hlast : ([y] ++ middle).Perm (middle ++ [y]) := perm_append_comm
            exact hlast.cons x
          have hall := (hmiddle.append_right after).append_left before
          simpa [append_assoc] using hall
        · exact forall_mem_append.mpr ⟨hbefore, forall_mem_cons.mpr ⟨hy, hfront⟩⟩
        · exact forall_mem_append.mpr ⟨hback, forall_mem_cons.mpr ⟨hx, hafter⟩⟩

theorem lastFirst_perm (xs : List α) : (lastFirst xs).Perm xs := by
  unfold lastFirst
  cases hlast : xs.getLast? with
  | none =>
    rw [getLast?_eq_none_iff.mp hlast]
    exact .refl _
  | some y =>
    obtain ⟨front, rfl⟩ := getLast?_eq_some_iff.mp hlast
    rw [dropLast_concat]
    exact perm_append_comm

/-! ## Preparation -/

theorem scatter_perm (a : Array α) : (scatter a).toList.Perm a.toList :=
  (swapIfInBounds_perm _ _ _).trans ((swapIfInBounds_perm _ _ _).trans (swapIfInBounds_perm _ _ _))

theorem prepared_sorts (h : Order less) (c : Course) (xs : List α) :
    (prepared less c xs).1.Perm xs ∧
      ((prepared less c xs).2.1 = true → Sorted less (prepared less c xs).1) := by
  unfold prepared
  have harray : (if c.balanced then xs.toArray else scatter xs.toArray).toList.Perm xs := by
    split
    · exact .refl _
    · exact scatter_perm xs.toArray
  dsimp only
  generalize (if c.balanced then xs.toArray else scatter xs.toArray) = a at harray ⊢
  rcases (pivot less a).run 0 with ⟨place, exchanges⟩
  -- The row as it is, or turned around.
  have hturned : (if exchanges = allExchanged then (a.toList.reverse, a.size - 1 - place)
      else (a.toList, place)).1.Perm xs := by
    split
    · exact (reverse_perm _).trans harray
    · exact harray
  dsimp only
  generalize (if exchanges = allExchanged then (a.toList.reverse, a.size - 1 - place)
    else (a.toList, place)) = turned at hturned ⊢
  split
  · obtain ⟨hperm, hdone⟩ := mend_sorts h (decide (longRow ≤ turned.1.length)) fewPairs [] turned.1 .nil
    exact ⟨hperm.trans hturned, hdone⟩
  · exact ⟨hturned, fun hdone => nomatch hdone⟩

/-! ## Sorting -/

/-- Two rows in order, with none in the second less than one of the first. -/
theorem sorted_append {xs ys : List α} (hxs : Sorted less xs) (hys : Sorted less ys)
    (h : ∀ x ∈ xs, ∀ y ∈ ys, less y x = false) : Sorted less (xs ++ ys) :=
  pairwise_append.mpr ⟨hxs, hys, h⟩

theorem sortRow_sorts (h : Order less) (most : Nat) (before : Option α) (c : Course) (xs : List α)
    (hmost : xs.length ≤ most) (hbefore : ∀ b ∈ before, ∀ x ∈ xs, less x b = false) :
    (sortRow less most before c xs).Perm xs ∧ Sorted less (sortRow less most before c xs) := by
  induction most generalizing before c xs with
  | zero =>
    obtain rfl := length_eq_zero_iff.mp (Nat.le_zero.mp hmost)
    exact ⟨.refl _, .nil⟩
  | succ most ih =>
    unfold sortRow
    split
    next => exact ⟨insertion_perm xs, sorted_insertion h xs⟩
    next =>
    split
    next => exact heapsort_sorts h xs
    next =>
    obtain ⟨hprepared, hdone⟩ := prepared_sorts h c xs
    dsimp only
    generalize (prepared less c xs).1 = ys at hprepared hdone ⊢
    generalize (prepared less c xs).2.2 = place
    generalize (if c.balanced then c else { c with badPivots := c.badPivots - 1 }) = c'
    split
    next hd => exact ⟨hprepared, hdone hd⟩
    next =>
    have hswap := (swapIfInBounds_perm ys.toArray 0 place).trans hprepared
    split
    next hrow =>
      rw [hrow] at hswap
      exact ⟨hswap, .nil⟩
    next p rest hrow =>
      rw [hrow] at hswap
      have hlength : rest.length ≤ most := by
        have := hswap.length_eq
        rw [length_cons] at this
        omega
      have hleast (b : α) (hb : b ∈ before) : ∀ x ∈ p :: rest, less x b = false :=
        fun x hx => hbefore b hb x (hswap.mem_iff.mp hx)
      split
      next hany =>
        -- The element before the row is not less than the pivot, and so no element is.
        have hpivot : ∀ x ∈ rest, less x p = false := by
          obtain ⟨b, hb, hbp⟩ : ∃ b ∈ before, less b p = false := by
            cases before with
            | none => cases hany
            | some b => exact ⟨b, rfl, by simpa using hany⟩
          exact fun x hx => h.trans hbp (hleast b hb x (mem_cons_of_mem p hx))
        obtain ⟨hperm, hsame, hgreater⟩ := separate_spec (fun x => !less p x)
          (Nat.le_refl rest.length)
        generalize (separate (fun x => !less p x) rest.length rest).1 = same at hperm hsame ⊢
        generalize (separate (fun x => !less p x) rest.length rest).2 = greater at hperm hgreater ⊢
        have hsame' : ∀ x ∈ p :: same, less p x = false := by
          refine forall_mem_cons.mpr ⟨h.irrefl p, fun x hx => ?_⟩
          simpa using hsame x hx
        have hpivot' : ∀ x ∈ p :: same, less x p = false := by
          refine forall_mem_cons.mpr ⟨h.irrefl p, fun x hx => ?_⟩
          exact hpivot x (hperm.mem_iff.mp (mem_append_left _ hx))
        have hcross : ∀ x ∈ p :: same, ∀ y ∈ greater, less y x = false := by
          intro x hx y hy
          have hpy : less p y = true := by simpa using hgreater y hy
          exact h.trans (hsame' x hx) (h.asymm hpy)
        obtain ⟨hperm', hsorted'⟩ := ih (p :: same).getLast? c' greater
          (by have := hperm.length_eq; rw [length_append] at this; omega)
          (fun b hb y hy => hcross b (mem_of_getLast? hb) y hy)
        refine ⟨?_, sorted_append ?_ hsorted' ?_⟩
        · exact ((hperm'.append_left (p :: same)).trans (hperm.cons p)).trans hswap
        · exact pairwise_of_forall_mem_list fun x hx y hy =>
            h.trans (hsame' x hx) (hpivot' y hy)
        · exact fun x hx y hy => hcross x hx y (hperm'.mem_iff.mp hy)
      next =>
        obtain ⟨hperm, hleft, hright⟩ := separate_spec (fun x => less x p)
          (Nat.le_refl rest.length)
        generalize (separate (fun x => less x p) rest.length rest).1 = left at hperm hleft ⊢
        generalize (separate (fun x => less x p) rest.length rest).2 = right at hperm hright ⊢
        generalize c'.sides (misplaced (fun x => less x p) rest).isEmpty left.length right.length = cs
        have hlengths : left.length + right.length = rest.length := by
          rw [← length_append, hperm.length_eq]
        have hfirst := lastFirst_perm left
        obtain ⟨hpl, hsl⟩ := ih before cs.1 (lastFirst left)
          (by rw [hfirst.length_eq]; omega)
          (fun b hb x hx => hleast b hb x (mem_cons_of_mem p
            (hperm.mem_iff.mp (mem_append_left _ (hfirst.mem_iff.mp hx)))))
        obtain ⟨hpr, hsr⟩ := ih (some p) cs.2 right (by omega)
          (fun b hb x hx => by cases hb; exact hright x hx)
        have hmemLeft : ∀ x ∈ sortRow less most before cs.1 (lastFirst left), less x p = true :=
          fun x hx => hleft x ((hpl.trans hfirst).mem_iff.mp hx)
        have hmemRight : ∀ x ∈ sortRow less most (some p) cs.2 right, less x p = false :=
          fun x hx => hright x (hpr.mem_iff.mp hx)
        refine ⟨?_, sorted_append hsl (pairwise_cons.mpr ⟨hmemRight, hsr⟩) ?_⟩
        · refine (((hpl.trans hfirst).append (hpr.cons p)).trans ?_).trans hswap
          exact perm_middle.trans (hperm.cons p)
        · refine fun x hx => forall_mem_cons.mpr ⟨h.asymm (hmemLeft x hx), fun y hy => ?_⟩
          exact h.trans (h.asymm (hmemLeft x hx)) (hmemRight y hy)

/-- **Quicksort sorts.** -/
theorem sort_sorts (h : Order less) (xs : List α) :
    (sort less xs).Perm xs ∧ Sorted less (sort less xs) :=
  sortRow_sorts h _ none _ xs (Nat.le_succ _) fun _ hb => nomatch hb

/-! ## Rows in order -/

section

variable {a : Array α} (ha : Sorted less a.toList)

include ha

/-- Elements of a row in order are not exchanged in the search for a pivot. -/
theorem lessAt_of_sorted (h : Order less) {i j : Nat} (hij : i ≤ j) : lessAt less a j i = false := by
  rcases Nat.eq_or_lt_of_le hij with rfl | hij
  · exact h.lessAt_irrefl i
  · cases hji : lessAt less a j i with
    | false => rfl
    | true =>
      obtain ⟨hj, hi⟩ := size_of_lessAt hji
      rw [← hji, lessAt_eq hj hi]
      exact pairwise_iff_getElem.mp ha i j (by simpa using hi) (by simpa using hj) hij

theorem ordered_of_sorted (h : Order less) {i j n : Nat} (hij : i ≤ j) :
    (ordered less a i j).run n = ((i, j), n) := by
  unfold ordered
  rw [if_neg (by simp [lessAt_of_sorted ha h hij])]
  rfl

theorem median_of_sorted (h : Order less) {i j k n : Nat} (hij : i ≤ j) (hjk : j ≤ k) :
    (median less a i j k).run n = (j, n) := by
  have hrun : (median less a i j k).run n =
      (let r := (ordered less a i j).run n
       let r' := (ordered less a r.1.2 k).run r.2
       let r'' := (ordered less a r.1.1 r'.1.1).run r'.2
       (r''.1.2, r''.2)) := rfl
  rw [hrun, ordered_of_sorted ha h hij]
  dsimp only
  rw [ordered_of_sorted ha h hjk]
  dsimp only
  rw [ordered_of_sorted ha h hij]

theorem pivot_of_sorted (h : Order less) : ((pivot less a).run 0).2 = 0 := by
  unfold pivot
  dsimp only
  split
  · rw [median_of_sorted ha h (by omega) (by omega)]
  · have haround (i n : Nat) : (medianAround less a i).run n = (i, n) :=
      median_of_sorted ha h (Nat.sub_le i 1) (Nat.le_succ i)
    have hrun : ((do
        let i ← medianAround less a (a.size / 4)
        let j ← medianAround less a (a.size / 4 * 2)
        let k ← medianAround less a (a.size / 4 * 3)
        median less a i j k : StateM Nat Nat).run 0) =
        (let r := (medianAround less a (a.size / 4)).run 0
         let r' := (medianAround less a (a.size / 4 * 2)).run r.2
         let r'' := (medianAround less a (a.size / 4 * 3)).run r'.2
         (median less a r.1 r'.1 r''.1).run r''.2) := rfl
    rw [hrun]
    simp only [haround]
    rw [median_of_sorted ha h (by omega) (by omega)]

end

/-- **A row in order is left as it is.** -/
theorem sort_of_sorted (h : Order less) {xs : List α} (hxs : Sorted less xs) : sort less xs = xs := by
  unfold sort sortRow
  split
  next => exact insertion_of_sorted hxs
  next hlength =>
    have hprepared : ∃ place, prepared less { badPivots := Nat.log2 xs.length + 1 } xs =
        (xs, true, place) := by
      have hpivot := pivot_of_sorted (a := xs.toArray) hxs h
      unfold prepared
      dsimp only
      rw [if_pos rfl]
      generalize (pivot less xs.toArray).run 0 = found at hpivot ⊢
      obtain ⟨place, exchanges⟩ := found
      obtain rfl : exchanges = 0 := hpivot
      refine ⟨place, ?_⟩
      dsimp only
      rw [if_pos (by decide), if_neg (show ¬0 = allExchanged by decide)]
      dsimp only
      rw [show fewPairs = 4 + 1 from rfl, mend_of_sorted hxs]
    obtain ⟨place, hprepared⟩ := hprepared
    rw [if_neg (Nat.succ_ne_zero _), hprepared]
    rfl

end Quicksort

end Resumable
