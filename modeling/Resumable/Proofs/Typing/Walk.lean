import Resumable.Proofs.Attempt
import Resumable.Proofs.Typing.Order
import Resumable.Typing.Analysis

/-!
# Walks over a block

A walk goes over instructions that follow each other, starts with a frame and shows the frame before
each instruction to a visitor. What it meets does not depend on the visitor: `Subject.Walks` relates
the frame that a walk starts with to the frames that it meets and to the one it ends with, and
`Subject.walks_of_walk` and `Subject.walk_of_walks` say that `Subject.walk` is such a walk whose frames
are folded over.
-/

namespace Resumable

open List

namespace Subject

/-- Instructions that follow each other accept the frames that they meet. -/
inductive Walks (s : Subject) : List Nat → Frame → List (Nat × Frame) → Frame → Prop
  | nil {f} : Walks s [] f [] f
  | cons {i rest instr f f' seen g} (hi : s.body[i]? = some instr)
      (hy : instr.Yields s.ctx f f') (hrest : Walks s rest f' seen g) :
      Walks s (i :: rest) f ((i, f) :: seen) g

variable {s : Subject} {l : List Nat} {f g g' : Frame} {seen : List (Nat × Frame)}

/-- A walk that succeeds has met some frames and shown them all to the visitor. -/
theorem walks_of_walk {σ : Type} {visit : σ → Nat → Frame → Attempt σ} {acc acc' : σ}
    {t t' : TypingState} (h : s.walk visit l acc t = .ok (acc', t')) :
    ∃ seen, s.Walks l t.frame seen t'.frame ∧
      seen.foldlM (fun acc p => visit acc p.1 p.2) acc = .ok acc' := by
  induction l generalizing acc t with
  | nil =>
    cases h
    exact ⟨[], .nil, rfl⟩
  | cons i rest ih =>
    rw [walk, bind_eq_ok] at h
    obtain ⟨acc₁, hv, h⟩ := h
    rw [bind_eq_ok] at h
    obtain ⟨instr, hi, h⟩ := h
    cases hr : Transfer.run s.ctx i instr t with
    | mk r t₁ =>
      rw [hr] at h
      cases r with
      | error e => exact absurd h throw_ne_ok
      | ok u =>
        obtain ⟨seen, hw, hf⟩ := ih h
        refine ⟨(i, t.frame) :: seen, ?_, ?_⟩
        · exact .cons (Attempt.ofOption_eq_ok.mp hi) (Transfer.run_eq_ok hr) hw
        · rw [foldlM_cons, bind_eq_ok]
          exact ⟨acc₁, hv, hf⟩

/-- A walk succeeds if its instructions accept the frames and the visitor takes them. -/
theorem walk_of_walks {σ : Type} {visit : σ → Nat → Frame → Attempt σ} {acc acc' : σ}
    (hw : s.Walks l f seen g)
    (hv : seen.foldlM (fun acc p => visit acc p.1 p.2) acc = .ok acc') (r : List Resolution) :
    ∃ r', s.walk visit l acc ⟨f, r⟩ = .ok (acc', ⟨g, r'⟩) := by
  induction hw generalizing acc r with
  | nil =>
    cases hv
    exact ⟨r, rfl⟩
  | @cons i rest instr f f' seen g hi hy _ ih =>
    rw [foldlM_cons, bind_eq_ok] at hv
    obtain ⟨acc₁, hv, hf⟩ := hv
    obtain ⟨r₁, hr⟩ := Transfer.run_of_yields hy i r
    obtain ⟨r', hw⟩ := ih hf r₁
    refine ⟨r', ?_⟩
    rw [walk, bind_eq_ok]
    refine ⟨acc₁, hv, ?_⟩
    rw [bind_eq_ok]
    refine ⟨instr, Attempt.ofOption_eq_ok.mpr hi, ?_⟩
    rw [hr]
    exact hw

namespace Walks

/-- What a walk meets is determined by the frame that it starts with. -/
theorem unique {seen' : List (Nat × Frame)} (h : s.Walks l f seen g)
    (h' : s.Walks l f seen' g') : seen = seen' ∧ g = g' := by
  induction h generalizing seen' with
  | nil =>
    cases h'
    exact ⟨rfl, rfl⟩
  | cons hi hy _ ih =>
    cases h' with
    | cons hi' hy' hrest =>
      rw [hi] at hi'
      cases hi'
      obtain rfl := hy.unique hy'
      obtain ⟨rfl, rfl⟩ := ih hrest
      exact ⟨rfl, rfl⟩

/-- A walk meets a frame before each of its instructions. -/
theorem map_fst (h : s.Walks l f seen g) : seen.map Prod.fst = l := by
  induction h with
  | nil => rfl
  | cons _ _ _ ih => rw [map_cons, ih]

/-- A walk from a smaller frame meets smaller frames. -/
theorem mono (hg : s.ctx.classes.Grounded) (h : s.Walks l g seen g')
    (hfg : f.Under s.ctx.classes.Inherits g) :
    ∃ seen₀ f', s.Walks l f seen₀ f' ∧ f'.Under s.ctx.classes.Inherits g' ∧
      Forall₂ (fun p q => p.1 = q.1 ∧ p.2.Under s.ctx.classes.Inherits q.2) seen₀ seen := by
  induction h generalizing f with
  | nil => exact ⟨[], f, .nil, hfg, .nil⟩
  | cons hi hy _ ih =>
    obtain ⟨f₁, hy₁, hle⟩ := hy.mono hg hfg
    obtain ⟨seen₀, f', hw, hf', hseen⟩ := ih hle
    exact ⟨_, f', .cons hi hy₁ hw, hf', .cons ⟨rfl, hfg⟩ hseen⟩

/-- The number of locals stays along a walk. -/
theorem locals_length (h : s.Walks l f seen g) :
    g.locals.length = f.locals.length ∧ ∀ p ∈ seen, p.2.locals.length = f.locals.length := by
  induction h with
  | nil => exact ⟨rfl, fun p hp => by cases hp⟩
  | cons _ hy _ ih =>
    obtain ⟨ih₁, ih₂⟩ := ih
    rw [hy.locals_length] at ih₁ ih₂
    refine ⟨ih₁, fun p hp => ?_⟩
    rcases mem_cons.mp hp with rfl | hp
    · rfl
    · exact ih₂ p hp

/-- Every instruction adds at most one slot to the stack. -/
theorem stack_length (h : s.Walks l f seen g) :
    g.stack.length ≤ f.stack.length + l.length := by
  induction h with
  | nil => exact Nat.le_refl _
  | cons _ hy _ ih =>
    have := hy.stack_length
    rw [length_cons]
    omega

/-- In a walk over a range, an instruction is followed by the next one or by the end. -/
theorem next {a n i : Nat} {F : Frame} (h : s.Walks (range' a n) f seen g)
    (hi : (i, F) ∈ seen) :
    ∃ instr F', s.body[i]? = some instr ∧ instr.Yields s.ctx F F' ∧ a ≤ i ∧ i < a + n ∧
      ((i + 1 < a + n ∧ (i + 1, F') ∈ seen) ∨ (i + 1 = a + n ∧ F' = g)) := by
  induction n generalizing a f seen with
  | zero =>
    cases h
    cases hi
  | succ n ih =>
    rw [range'_succ] at h
    cases h with
    | @cons _ _ instr _ f' seen _ hb hy hrest =>
      rcases mem_cons.mp hi with heq | hi
      · cases heq
        refine ⟨instr, f', hb, hy, Nat.le_refl _, by omega, ?_⟩
        cases n with
        | zero =>
          cases hrest
          exact Or.inr ⟨rfl, rfl⟩
        | succ n =>
          rw [range'_succ] at hrest
          cases hrest
          exact Or.inl ⟨by omega, mem_cons_of_mem _ mem_cons_self⟩
      · obtain ⟨instr', F', hb', hy', h1, h2, h3⟩ := ih hrest hi
        refine ⟨instr', F', hb', hy', by omega, by omega, ?_⟩
        rcases h3 with ⟨h3, hm⟩ | ⟨h3, hg⟩
        · exact Or.inl ⟨by omega, mem_cons_of_mem _ hm⟩
        · exact Or.inr ⟨by omega, hg⟩

/-- A walk over a range starts with its frame. -/
theorem head {a n : Nat} (h : s.Walks (range' a n) f seen g) (hn : 0 < n) : (a, f) ∈ seen := by
  cases n with
  | zero => cases hn
  | succ n =>
    rw [range'_succ] at h
    cases h
    exact mem_cons_self

end Walks

end Subject

end Resumable
