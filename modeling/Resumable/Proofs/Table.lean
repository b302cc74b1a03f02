import Mathlib.Algebra.Group.Nat.Defs
import Mathlib.Data.List.Basic
import Resumable.Text.Basic

/-!
# Tables with 32-bit indices

What an index finds in a table, and that it still finds it when the table has grown at its end.
-/

namespace Resumable

open List

variable {α : Type} {table table' : List α}

theorem exists_item?_iff {n : UInt32} : (∃ x, item? table n = some x) ↔ n.toNat < table.length := by
  unfold item?
  constructor
  · rintro ⟨x, hx⟩
    exact (List.getElem?_eq_some_iff.mp hx).1
  · exact fun h => ⟨_, getElem?_eq_getElem h⟩

theorem item?_mono {n : UInt32} {x : α} (h : table <+: table')
    (hx : item? table n = some x) : item? table' n = some x := by
  obtain ⟨more, rfl⟩ := h
  unfold item? at *
  rw [getElem?_append_left (List.getElem?_eq_some_iff.mp hx).1]
  exact hx

/-- A new entry at the end of a table is found there. -/
theorem item?_append_singleton {x : α} (h : (table ++ [x]).length ≤ 2 ^ 32) :
    item? (table ++ [x]) (UInt32.ofNat table.length) = some x := by
  rw [length_append, length_singleton] at h
  unfold item?
  rw [UInt32.toNat_ofNat_of_lt' (show _ < 2 ^ 32 by omega)]
  simp

/-- The first entry that passes a test is found where it stands. -/
theorem item?_findIdx {p : α → Bool} {k : Nat} (hk : table.findIdx? p = some k)
    (h : table.length ≤ 2 ^ 32) : ∃ x, item? table (UInt32.ofNat k) = some x ∧ p x := by
  obtain ⟨hlt, hp, _⟩ := findIdx?_eq_some_iff_getElem.mp hk
  refine ⟨table[k], ?_, hp⟩
  unfold item?
  rw [UInt32.toNat_ofNat_of_lt' (show _ < 2 ^ 32 by omega)]
  exact getElem?_eq_getElem hlt

/-- A row that begins another one still does when both change at the same place. -/
theorem prefix_set (h : table <+: table') {n : Nat} (hn : n < table.length) (x : α) :
    table.set n x <+: table'.set n x := by
  obtain ⟨more, rfl⟩ := h
  rw [set_append_left _ _ hn]
  exact prefix_append _ _

end Resumable
