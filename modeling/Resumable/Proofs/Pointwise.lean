import Mathlib.Data.List.Forall2
import Resumable.Proofs.Attempt

/-!
# Lists that are related member by member

What is needed of `List.Forall₂` besides the library: how it composes, and what follows for single
members, for updates and for parts of the lists. The members of a list and what they were computed
from are related in this way too.
-/

namespace Resumable

open List

variable {α β γ : Type} {R : α → β → Prop}

/-- Relations that hold pointwise can be composed. -/
theorem forall₂_comp {S : β → γ → Prop} {T : α → γ → Prop} {as : List α} {bs : List β}
    {cs : List γ} (h1 : Forall₂ R as bs) (h2 : Forall₂ S bs cs)
    (hrst : ∀ a b c, R a b → S b c → T a c) : Forall₂ T as cs := by
  induction h1 generalizing cs with
  | nil =>
    cases h2
    exact .nil
  | cons hab _ ih =>
    cases h2 with
    | cons hbc h2 => exact .cons (hrst _ _ _ hab hbc) (ih h2)

theorem forall₂_antisymm {R : α → α → Prop} (hr : ∀ {a b}, R a b → R b a → a = b)
    {as bs : List α} (h1 : Forall₂ R as bs) (h2 : Forall₂ R bs as) : as = bs := by
  induction h1 with
  | nil => rfl
  | cons hab _ ih =>
    cases h2 with
    | cons hba h2 => rw [hr hab hba, ih h2]

variable {as : List α} {bs : List β}

theorem forall₂_getElem? (h : Forall₂ R as bs) {n : Nat} {b : β} (hb : bs[n]? = some b) :
    ∃ a, as[n]? = some a ∧ R a b := by
  induction h generalizing n with
  | nil => simp at hb
  | cons hab _ ih =>
    cases n with
    | zero =>
      cases hb
      exact ⟨_, rfl, hab⟩
    | succ n => exact ih hb

theorem forall₂_exists_mem (h : Forall₂ R as bs) {a : α} (ha : a ∈ as) :
    ∃ b ∈ bs, R a b := by
  induction h with
  | nil => cases ha
  | cons hab _ ih =>
    rcases mem_cons.mp ha with rfl | ha
    · exact ⟨_, mem_cons_self, hab⟩
    · obtain ⟨b, hb, hr⟩ := ih ha
      exact ⟨b, mem_cons_of_mem _ hb, hr⟩

theorem forall₂_set (h : Forall₂ R as bs) (n : Nat) {a : α} {b : β} (hab : R a b) :
    Forall₂ R (as.set n a) (bs.set n b) := by
  induction h generalizing n with
  | nil => exact .nil
  | cons hab' hs ih =>
    cases n with
    | zero => exact .cons hab hs
    | succ n => exact .cons hab' (ih n)

/-- The part of a list that is related to the first part of another one. -/
theorem forall₂_append_right {ts st : List β} (h : Forall₂ R as (ts ++ st)) :
    ∃ us vs, as = us ++ vs ∧ Forall₂ R us ts ∧ Forall₂ R vs st :=
  ⟨as.take ts.length, as.drop ts.length, (take_append_drop _ _).symm,
    forall₂_take_append as ts st h, forall₂_drop_append as ts st h⟩

/-- The results of a list of computations belong to its members one by one. -/
theorem mapM_eq_ok {ε α β : Type} {f : α → Except ε β} {xs : List α} {ys : List β} :
    xs.mapM f = .ok ys ↔ Forall₂ (fun x y => f x = .ok y) xs ys := by
  induction xs generalizing ys with
  | nil => simp [pure, Except.pure, eq_comm]
  | cons x xs ih =>
    rw [mapM_cons, bind_eq_ok]
    simp only [bind_eq_ok, pure_eq_ok, ih]
    constructor
    · rintro ⟨y, hy, ys', hys, rfl⟩
      exact .cons hy hys
    · intro h
      cases h with
      | cons hy hys => exact ⟨_, hy, _, hys, rfl⟩

/-- What fails for a list fails for one of its members. -/
theorem exists_of_mapM_eq_error {ε α β : Type} {f : α → Except ε β} {xs : List α} {e : ε}
    (h : xs.mapM f = .error e) : ∃ x ∈ xs, f x = .error e := by
  induction xs with
  | nil => cases h
  | cons x xs ih =>
    rw [mapM_cons] at h
    cases hx : f x with
    | error e' =>
      rw [hx] at h
      cases h
      exact ⟨x, mem_cons_self, hx⟩
    | ok y =>
      cases hxs : xs.mapM f with
      | ok ys =>
        rw [hx, hxs] at h
        cases h
      | error e' =>
        rw [hx, hxs] at h
        cases h
        obtain ⟨x', hmem, hx'⟩ := ih hxs
        exact ⟨x', mem_cons_of_mem x hmem, hx'⟩

/-- Computations that succeed under a condition, with a known result, do so for all members. -/
theorem mapM_eq_ok_map {ε α β : Type} {f : α → Except ε β} {p : α → Prop} {g : α → β}
    (hf : ∀ x y, f x = .ok y ↔ p x ∧ g x = y) {xs : List α} {ys : List β} :
    xs.mapM f = .ok ys ↔ (∀ x ∈ xs, p x) ∧ xs.map g = ys := by
  simp only [mapM_eq_ok, hf]
  rw [forall₂_and_left, ← forall₂_map_left_iff (R := (· = ·)), forall₂_eq_eq_eq]

/-- The same where a computation knows the place of its member, and does not depend on it. -/
theorem mapM_zipIdx_eq_ok_map {ε α β : Type} {f : α × Nat → Except ε β} {p : α → Prop} {g : α → β}
    (hf : ∀ x k y, f (x, k) = .ok y ↔ p x ∧ g x = y) {xs : List α} {ys : List β} :
    xs.zipIdx.mapM f = .ok ys ↔ (∀ x ∈ xs, p x) ∧ xs.map g = ys := by
  have hfst : xs.zipIdx.map Prod.fst = xs := zipIdx_map_fst 0 xs
  have hmap : xs.zipIdx.map (g ∘ Prod.fst) = xs.map g := by rw [← map_map, hfst]
  rw [mapM_eq_ok_map (p := fun q => p q.1) (g := g ∘ Prod.fst) fun q y => hf q.1 q.2 y,
    ← forall_mem_map (P := p), hfst, hmap]

end Resumable
