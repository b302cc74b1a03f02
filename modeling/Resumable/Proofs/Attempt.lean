import Resumable.Error

/-!
# Computations that succeed

A computation that may fail is a chain of steps, a check for every member of a list or a fold over
one. The lemmas say what has to hold of the parts when the whole succeeds, so that proofs about such
computations can take them apart step by step.
-/

namespace Resumable

open List

section

variable {ε α β : Type}

theorem bind_eq_ok {x : Except ε α} {k : α → Except ε β} {b : β} :
    (x >>= k) = .ok b ↔ ∃ a, x = .ok a ∧ k a = .ok b := by
  cases x with
  | error e | ok a => simp [bind, Except.bind]

theorem pure_eq_ok {a b : α} : (pure a : Except ε α) = .ok b ↔ a = b := by
  simp [pure, Except.pure]

theorem toOption_eq_some {x : Except ε α} {a : α} : x.toOption = some a ↔ x = .ok a := by
  cases x <;> simp [Except.toOption]

theorem throw_ne_ok {e : ε} {b : α} : (throw e : Except ε α) ≠ .ok b := by
  simp [throw, throwThe, MonadExceptOf.throw]

theorem mapError_eq_ok {δ : Type} {x : Except ε α} {f : ε → δ} {a : α} :
    x.mapError f = .ok a ↔ x = .ok a := by
  cases x <;> constructor <;> intro h <;> cases h <;> rfl

/-- Checks of all members succeed if each one does. -/
theorem forM_eq_ok {f : α → Except ε Unit} {l : List α} :
    l.forM f = .ok () ↔ ∀ a ∈ l, f a = .ok () := by
  induction l with
  | nil => simp [List.forM, pure, Except.pure]
  | cons a l ih =>
    rw [show (a :: l).forM f = (f a >>= fun _ => l.forM f) from rfl, bind_eq_ok]
    simp only [mem_cons, forall_eq_or_imp, ← ih]
    constructor
    · rintro ⟨_, ha, hl⟩
      exact ⟨ha, hl⟩
    · rintro ⟨ha, hl⟩
      exact ⟨(), ha, hl⟩

/-- Checks that know the place of a member and do not depend on it. -/
theorem forM_zipIdx_eq_ok {f : α × Nat → Except ε Unit} {p : α → Prop} {l : List α}
    (hf : ∀ a k, f (a, k) = .ok () ↔ p a) : l.zipIdx.forM f = .ok () ↔ ∀ a ∈ l, p a := by
  rw [forM_eq_ok]
  constructor
  · intro h a ha
    obtain ⟨k, hk⟩ := mem_iff_getElem?.mp ha
    exact (hf a k).mp (h (a, k) (mk_mem_zipIdx_iff_getElem?.mpr hk))
  · rintro h ⟨a, k⟩ hak
    exact (hf a k).mpr (h a (mem_of_getElem? (mk_mem_zipIdx_iff_getElem?.mp hak)))

/-- A computation that goes on unless a check fails. -/
theorem guarded_eq_ok {c : Prop} [Decidable c] {e : ε} {k : α → Except ε β} {x : Except ε β} {b : β} :
    (if c then throw e >>= k else x) = .ok b ↔ ¬c ∧ x = .ok b := by
  split
  next h => exact iff_of_false (fun h => by cases h) fun h' => h'.1 h
  next h => exact (and_iff_right h).symm

/-- What every step of a fold keeps, the whole fold keeps. -/
theorem foldlM_induction {f : β → α → Except ε β} (motive : β → Prop)
    {l : List α} {b b' : β} (hf : ∀ a ∈ l, ∀ c c', motive c → f c a = .ok c' → motive c')
    (hb : motive b) (h : l.foldlM f b = .ok b') : motive b' := by
  induction l generalizing b with
  | nil =>
    cases h
    exact hb
  | cons a l ih =>
    rw [foldlM_cons, bind_eq_ok] at h
    obtain ⟨c, hc, h⟩ := h
    exact ih (fun a' ha' => hf a' (mem_cons_of_mem a ha'))
      (hf a mem_cons_self b c hb hc) h

/-- What a step of a fold brings about, and what later steps do not undo, holds in the end. -/
theorem foldlM_forall {f : β → α → Except ε β} (inv : β → Prop) (R : β → β → Prop)
    (Q : α → β → Prop) (hrefl : ∀ c, R c c) (htrans : ∀ {c d e}, R c d → R d e → R c e)
    (hmono : ∀ {a c d}, R c d → Q a c → Q a d) {l : List α} {b b' : β}
    (hf : ∀ a ∈ l, ∀ c c', inv c → f c a = .ok c' → inv c' ∧ R c c' ∧ Q a c')
    (hb : inv b) (h : l.foldlM f b = .ok b') : inv b' ∧ R b b' ∧ ∀ a ∈ l, Q a b' := by
  induction l generalizing b with
  | nil =>
    cases h
    exact ⟨hb, hrefl _, fun a ha => by cases ha⟩
  | cons a l ih =>
    rw [foldlM_cons, bind_eq_ok] at h
    obtain ⟨c, hc, h⟩ := h
    obtain ⟨hi, hr, hq⟩ := hf a mem_cons_self b c hb hc
    obtain ⟨hi', hr', hq'⟩ := ih (fun a' ha' => hf a' (mem_cons_of_mem a ha')) hi h
    refine ⟨hi', htrans hr hr', fun a' ha' => ?_⟩
    rcases mem_cons.mp ha' with rfl | ha'
    · exact hmono hr' hq
    · exact hq' a' ha'

/-- A fold succeeds if every step does from what the steps before it keep. -/
theorem foldlM_succeeds {f : β → α → Except ε β} (motive : β → Prop)
    {l : List α} {b : β} (hf : ∀ a ∈ l, ∀ c, motive c → ∃ c', f c a = .ok c' ∧ motive c')
    (hb : motive b) : ∃ b', l.foldlM f b = .ok b' ∧ motive b' := by
  induction l generalizing b with
  | nil => exact ⟨b, rfl, hb⟩
  | cons a l ih =>
    obtain ⟨c, hc, hm⟩ := hf a mem_cons_self b hb
    obtain ⟨b', hb', hm'⟩ := ih (fun a' ha' => hf a' (mem_cons_of_mem a ha')) hm
    refine ⟨b', ?_, hm'⟩
    rw [foldlM_cons, bind_eq_ok]
    exact ⟨c, hc, hb'⟩

end

/-- A look-up that finds something is within the list. -/
theorem lt_of_getElem? {α : Type} {l : List α} {n : Nat} {a : α} (h : l[n]? = some a) :
    n < l.length :=
  (List.getElem?_eq_some_iff.mp h).1

theorem Attempt.ofOption_eq_ok {α : Type} {o : Option α} {a : α} :
    Attempt.ofOption o = .ok a ↔ o = some a := by
  cases o <;> simp [Attempt.ofOption]

theorem Attempt.fail_ne_ok {α : Type} {e : Error} {a : α} : Attempt.fail e ≠ .ok a := by
  simp [Attempt.fail]

theorem Attempt.mapError_eq_ok_iff {α : Type} {f : Error → Error} {x : Attempt α} {a : α} :
    Attempt.mapError f x = .ok a ↔ x = .ok a := by
  rcases x with (_ | _ | _) | _ <;> simp [Attempt.mapError]

theorem Attempt.ofExcept_eq_ok {ε α : Type} {message : ε → Text} {x : Except ε α} {a : α} :
    Attempt.ofExcept message x = .ok a ↔ x = .ok a := by
  cases x <;> simp [Attempt.ofExcept, Attempt.fail]

end Resumable
