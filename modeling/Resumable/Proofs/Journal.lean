import Resumable.Transform

/-!
# Work that writes a journal

What is known of work that is done, and of work that cannot fail. What is written in the journal plays
no part in it.
-/

namespace Resumable

open List

namespace Journaled

variable {α β : Type} {x : Journaled α} {a : α}

/-- The work is done and gives a value, whatever is written. -/
def Returns (x : Journaled α) (a : α) : Prop := ∃ j j', ExceptT.run x j = (.ok a, j')

theorem returns_of_outcome (h : (outcome x).1 = .ok a) : x.Returns a :=
  ⟨{}, (outcome x).2, Prod.ext h rfl⟩

theorem run_bind (x : Journaled α) (k : α → Journaled β) (j : Journal) :
    ExceptT.run (x >>= k) j =
      match ExceptT.run x j with
      | (.ok a, j) => ExceptT.run (k a) j
      | (.error e, j) => (.error e, j) := by
  show (match ExceptT.run x j with | (r, j) => ExceptT.bindCont k r j) = _
  rcases ExceptT.run x j with ⟨_ | _, _⟩ <;> rfl

theorem Returns.bind {k : α → Journaled β} {b : β} (h : Returns (x >>= k) b) :
    ∃ a, x.Returns a ∧ (k a).Returns b := by
  obtain ⟨j, j', h⟩ := h
  rw [run_bind] at h
  split at h
  next a j₁ hx => exact ⟨a, ⟨j, j₁, hx⟩, j₁, j', h⟩
  next => cases h

theorem Returns.pure {b : α} (h : Returns (Pure.pure a) b) : a = b := by
  obtain ⟨j, j', h⟩ := h
  cases h
  rfl

theorem not_returns_throw {f : Failure} : ¬Returns (throw f : Journaled α) a := by
  rintro ⟨j, j', h⟩
  cases h

theorem Returns.orElse {y : Attempt α} {tell : Error → Journaled Unit}
    (h : Returns (orElse y tell) a) : y = .ok a := by
  cases y with
  | ok b => rw [Returns.pure h]
  | error f =>
    cases f with
    | error e =>
      obtain ⟨_, _, h⟩ := Returns.bind h
      exact absurd h not_returns_throw
    | outOfRange => exact absurd h not_returns_throw
    | endless => exact absurd h not_returns_throw

/-- A row of steps that all are done, in which every step keeps what `inv` says. The numbers of the
steps count up from zero. -/
theorem Returns.foldlM_range {f : α → Nat → Journaled α} (inv : Nat → α → Prop) {n : Nat} {a b : α}
    (h : Returns ((range n).foldlM f a) b) (h0 : inv 0 a)
    (step : ∀ k x y, k < n → inv k x → (f x k).Returns y → inv (k + 1) y) : inv n b := by
  induction n generalizing b with
  | zero => exact Returns.pure h ▸ h0
  | succ n ih =>
    rw [range_succ, foldlM_append] at h
    obtain ⟨x, hx, h⟩ := h.bind
    rw [foldlM_cons] at h
    obtain ⟨y, hy, h⟩ := h.bind
    obtain rfl := Returns.pure h
    exact step n x y n.lt_succ_self
      (ih hx fun k x y hk => step k x y (Nat.lt_succ_of_lt hk)) hy

/-- The work is done and gives a value, whatever was written before. -/
def Succeeds (x : Journaled α) (a : α) : Prop := ∀ j, ∃ j', ExceptT.run x j = (.ok a, j')

theorem Succeeds.pure (a : α) : Succeeds (Pure.pure a) a := fun j => ⟨j, rfl⟩

theorem Succeeds.bind {k : α → Journaled β} {b : β} (h : x.Succeeds a) (hk : (k a).Succeeds b) :
    (x >>= k).Succeeds b := by
  intro j
  obtain ⟨j₁, h⟩ := h j
  obtain ⟨j₂, hk⟩ := hk j₁
  exact ⟨j₂, by rw [run_bind, h]; exact hk⟩

theorem succeeds_log (e : LogEntry) : (log e).Succeeds () := fun j => ⟨j.log e, rfl⟩

theorem succeeds_report (message : Text) : (report message).Succeeds () :=
  fun j => ⟨j.report message, rfl⟩

theorem Succeeds.foldlM {f : β → α → Journaled β} {l : List α} {b : β}
    (h : ∀ a ∈ l, (f b a).Succeeds b) : (l.foldlM f b).Succeeds b := by
  induction l with
  | nil => exact .pure b
  | cons a l ih =>
    rw [forall_mem_cons] at h
    exact h.1.bind (ih h.2)

end Journaled

end Resumable
