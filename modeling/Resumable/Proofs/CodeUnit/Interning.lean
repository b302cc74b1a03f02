import Mathlib.Data.List.Nodup
import Resumable.CodeUnit.Basic
import Resumable.Proofs.Table

/-!
# Interning

A string is looked for in the pool, and a symbol in its table by its descriptor. What is not found is
put at the end, so nothing moves and no entry stands twice.
-/

namespace Resumable

open List

namespace CodeUnit

variable {u : CodeUnit}

theorem addString_cases (u : CodeUnit) (s : Text) :
    (∃ i, u.strings[i]? = some s ∧ u.addString s = (UInt32.ofNat i, u)) ∨
      (s ∉ u.strings ∧ u.addString s =
        (UInt32.ofNat u.strings.length, { u with strings := u.strings ++ [s] })) := by
  unfold addString
  cases hk : u.strings.findIdx? (· = s) with
  | some i =>
    obtain ⟨hlt, hp, -⟩ := findIdx?_eq_some_iff_getElem.mp hk
    refine .inl ⟨i, ?_, rfl⟩
    rw [getElem?_eq_getElem hlt, of_decide_eq_true hp]
  | none =>
    refine .inr ⟨fun hs => ?_, rfl⟩
    exact absurd (findIdx?_eq_none_iff.mp hk s hs) (by simp)

theorem addSymbol_cases (u : CodeUnit) (s : Symbol) :
    (∃ i x, u.symbols[i]? = some x ∧ x.text = s.text ∧ u.addSymbol s = (UInt32.ofNat i, u)) ∨
      ((∀ x ∈ u.symbols, x.text ≠ s.text) ∧ u.addSymbol s =
        (UInt32.ofNat u.symbols.length, { u with symbols := u.symbols ++ [s] })) := by
  unfold addSymbol
  cases hk : u.symbols.findIdx? (·.text = s.text) with
  | some i =>
    obtain ⟨hlt, hp, -⟩ := findIdx?_eq_some_iff_getElem.mp hk
    exact .inl ⟨i, u.symbols[i], getElem?_eq_getElem hlt, of_decide_eq_true hp, rfl⟩
  | none =>
    refine .inr ⟨fun x hx => ?_, rfl⟩
    exact of_decide_eq_false (findIdx?_eq_none_iff.mp hk x hx)

/-- A string of the pool is found where it stands, if it stands there alone. -/
theorem addString_of_getElem? {s : Text} {n : Nat} (hnodup : u.strings.Nodup)
    (hs : u.strings[n]? = some s) : u.addString s = (UInt32.ofNat n, u) := by
  obtain ⟨hn, hget⟩ := List.getElem?_eq_some_iff.mp hs
  rcases addString_cases u s with ⟨i, hi, heq⟩ | ⟨hnot, -⟩
  · obtain ⟨hlt, hget'⟩ := List.getElem?_eq_some_iff.mp hi
    rw [heq, (hnodup.getElem_inj_iff).mp (hget'.trans hget.symm)]
  · exact absurd (mem_of_getElem? hs) hnot

theorem addString_of_not_mem {s : Text} (hs : s ∉ u.strings) :
    u.addString s = (UInt32.ofNat u.strings.length, { u with strings := u.strings ++ [s] }) := by
  rcases addString_cases u s with ⟨i, hi, -⟩ | ⟨-, heq⟩
  · exact absurd (mem_of_getElem? hi) hs
  · exact heq

theorem addSymbol_of_forall_ne {s : Symbol} (hs : ∀ x ∈ u.symbols, x.text ≠ s.text) :
    u.addSymbol s = (UInt32.ofNat u.symbols.length, { u with symbols := u.symbols ++ [s] }) := by
  rcases addSymbol_cases u s with ⟨i, x, hi, htext, -⟩ | ⟨-, heq⟩
  · exact absurd htext (hs x (mem_of_getElem? hi))
  · exact heq

/-- **An interned symbol is written like the one that was asked for.** -/
theorem item?_addSymbol {s : Symbol} (h : (u.addSymbol s).2.symbols.length ≤ 2 ^ 32) :
    ∃ x, item? (u.addSymbol s).2.symbols (u.addSymbol s).1 = some x ∧ x.text = s.text := by
  rcases addSymbol_cases u s with ⟨i, x, hi, htext, heq⟩ | ⟨-, heq⟩
  · rw [heq] at h ⊢
    refine ⟨x, ?_, htext⟩
    have hlt : i < 2 ^ 32 := Nat.lt_of_lt_of_le (List.getElem?_eq_some_iff.mp hi).1 h
    unfold item?
    rwa [UInt32.toNat_ofNat_of_lt' hlt]
  · rw [heq] at h ⊢
    exact ⟨s, item?_append_singleton h, rfl⟩

/-- Interning a symbol leaves the unit as it is, or puts the symbol at the end of its table. -/
theorem addSymbol_eq_or (u : CodeUnit) (s : Symbol) :
    (u.addSymbol s).2 = u ∨ (u.addSymbol s).2 = { u with symbols := u.symbols ++ [s] } := by
  rcases addSymbol_cases u s with ⟨_, _, _, _, heq⟩ | ⟨_, heq⟩
  · exact .inl (by rw [heq])
  · exact .inr (by rw [heq])

theorem symbols_prefix_addSymbol (u : CodeUnit) (s : Symbol) :
    u.symbols <+: (u.addSymbol s).2.symbols := by
  rcases addSymbol_eq_or u s with heq | heq
  · simp only [heq, prefix_refl]
  · simp only [heq, prefix_append]

/-- No two symbols of the table are written alike, if they were not before. -/
theorem nodup_addSymbol {s : Symbol} (h : (u.symbols.map Symbol.text).Nodup) :
    ((u.addSymbol s).2.symbols.map Symbol.text).Nodup := by
  rcases addSymbol_cases u s with ⟨_, _, _, _, heq⟩ | ⟨hne, heq⟩
  · rwa [heq]
  · rw [heq, map_append]
    refine h.append (nodup_singleton _) fun t ht ht' => ?_
    obtain ⟨x, hx, rfl⟩ := mem_map.mp ht
    exact hne x hx (mem_singleton.mp ht')

end CodeUnit

end Resumable
