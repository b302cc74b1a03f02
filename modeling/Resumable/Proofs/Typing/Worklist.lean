import Mathlib.Algebra.Order.BigOperators.Group.Finset
import Resumable.Proofs.Typing.Propagation

/-!
# The worklist

Queued blocks are spread until none is left. `Subject.Rounds` lets them be taken from the queue in
any order, and `Subject.settle` is the run that always takes the oldest one. Three facts hold for
every run. When the queue is empty the entry frames are consistent. They stay below every consistent
assignment, and a round only fails if there is none. And a potential falls in every round, so that
no run goes on for ever.
-/

namespace Resumable

open List

/-- A block is taken from the queue. -/
def Propagation.take (p : Propagation) (b : Nat) : Propagation :=
  { p with queue := p.queue.erase b }

namespace Subject

open Propagation

/-- Some rounds, in each of which a queued block is spread. -/
inductive Rounds (s : Subject) : Nat → Propagation → Propagation → Prop
  | refl {p} : Rounds s 0 p p
  | step {n b p p' q} (hb : b ∈ p.queue) (hs : s.spread (p.take b) b = .ok p')
      (hr : Rounds s n p' q) : Rounds s (n + 1) p q

variable {s : Subject} {I : Text → Text → Prop} {σ τ : Nat → Option Frame} {entry f : Frame}
  {p p' q : Propagation} {n b : Nat}

/-- The run that takes the oldest block in every round. -/
theorem rounds_of_settle {rounds : Nat} (h : s.settle rounds p = .ok q) :
    ∃ k, s.Rounds k p q ∧ q.queue = [] := by
  induction rounds generalizing p with
  | zero =>
    unfold settle at h
    split at h
    next hq =>
      cases h
      exact ⟨0, .refl, List.isEmpty_iff.mp hq⟩
    next => cases h
  | succ rounds ih =>
    unfold settle at h
    split at h
    next hq =>
      cases h
      exact ⟨0, .refl, hq⟩
    next c queue hq =>
      obtain ⟨p', hs, h⟩ := bind_eq_ok.mp h
      obtain ⟨k, hr, hq'⟩ := ih h
      refine ⟨k + 1, .step (b := c) (by rw [hq]; exact mem_cons_self) ?_ hr, hq'⟩
      rw [Propagation.take, hq, erase_cons_head]
      exact hs

/-! ## What is left to do -/

/-- Frames on their way: only queued blocks may fail to pass. -/
structure Underway (s : Subject) (I : Text → Text → Prop) (entry : Frame) (p : Propagation) :
    Prop where
  sized : p.Sized entry.locals.length
  length : p.entries.length = s.graph.blocks.length
  admits : Admits I p.entryOf 0 entry
  passes : ∀ {b : Nat} {f : Frame}, p.entryOf b = some f → b ∉ p.queue →
    ∃ B, s.graph.blocks[b]? = some B ∧ s.Passes I p.entryOf B f
  queued : ∀ {b : Nat}, b ∈ p.queue → ∃ f, p.entryOf b = some f

/-- The frames before the first round. -/
def initial (s : Subject) (entry : Frame) : Propagation :=
  { entries := (s.graph.blocks.map fun _ => none).set 0 (some entry), queue := [0] }

theorem entryOf_initial (hne : s.graph.blocks ≠ []) (b : Nat) :
    (s.initial entry).entryOf b = if b = 0 then some entry else none := by
  have hlen : 0 < s.graph.blocks.length := length_pos_of_ne_nil hne
  unfold initial entryOf
  by_cases hb : b = 0
  · subst hb
    simp [hlen]
  · rw [if_neg hb, getElem?_set_ne (Ne.symm hb), getElem?_map]
    cases s.graph.blocks[b]? <;> rfl

theorem underway_initial (hne : s.graph.blocks ≠ []) : s.Underway I entry (s.initial entry) where
  sized := by
    intro b f hf
    rw [entryOf_initial hne] at hf
    split at hf
    · cases hf
      rfl
    · cases hf
  length := by simp [initial]
  admits := ⟨entry, by rw [entryOf_initial hne, if_pos rfl], .refl I entry⟩
  passes := by
    intro b f hf hb
    rw [entryOf_initial hne] at hf
    split at hf
    next h0 => exact absurd (by rw [h0]; exact mem_singleton.mpr rfl) hb
    next => cases hf
  queued := by
    intro b hb
    obtain rfl := mem_singleton.mp hb
    exact ⟨entry, by rw [entryOf_initial hne, if_pos rfl]⟩

/-- **A round keeps the invariant.** The block that was spread passes, and the other blocks pass
unless their frame changed, in which case they are queued. -/
theorem Underway.round (hb : s.ctx.classes.Bounds I) (hu : s.Underway I entry p)
    (hs : s.spread (p.take b) b = .ok p') : s.Underway I entry p' := by
  have hsized : (p.take b).Sized entry.locals.length := hu.sized
  obtain ⟨B, f, hB, hf, hsized', hrises, hpasses⟩ := spread_passes hb hsized hs
  have hentry : (p.take b).entryOf = p.entryOf := rfl
  refine ⟨hsized', hrises.length.trans hu.length, hrises.admits hb hu.admits, ?_, ?_⟩
  · intro c g hg hc
    obtain ⟨hc', hsame⟩ := hrises.same hc
    rw [hsame, hentry] at hg
    by_cases hcb : c = b
    · subst hcb
      rw [hentry, hg] at hf
      cases hf
      exact ⟨B, hB, hpasses⟩
    · have hcq : c ∉ p.queue := fun hm => hc' ((mem_erase_of_ne hcb).mpr hm)
      obtain ⟨C, hC, hpass⟩ := hu.passes hg hcq
      exact ⟨C, hC, hpass.mono (hrises.admits hb)⟩
  · intro c hc
    rcases hrises.queued hc with hc | hc
    · obtain ⟨g, hg⟩ := hu.queued (mem_of_mem_erase hc)
      obtain ⟨g', hg', _⟩ := hrises.grows (show (p.take b).entryOf c = some g from hg)
      exact ⟨g', hg'⟩
    · exact hc

theorem Underway.rounds (hb : s.ctx.classes.Bounds I) (hu : s.Underway I entry p)
    (hr : s.Rounds n p q) : s.Underway I entry q := by
  induction hr with
  | refl => exact hu
  | step _ hs _ ih => exact ih (hu.round hb hs)

/-- With nothing left to do, the entry frames are consistent. -/
theorem Underway.consistent (hu : s.Underway I entry p) (hq : p.queue = []) :
    s.Consistent I entry p.entryOf where
  entry := hu.admits
  block hf := hu.passes hf (by rw [hq]; exact not_mem_nil)

/-! ## Below every consistent assignment -/

/-- The entry frames are below those of an assignment. -/
def Below (s : Subject) (p : Propagation) (τ : Nat → Option Frame) : Prop :=
  ∀ ⦃b : Nat⦄ ⦃f : Frame⦄, p.entryOf b = some f → Admits s.ctx.classes.Inherits τ b f

theorem below_enter {target : Nat} (hlt : target < p.entries.length) (hτ : s.Below p τ)
    (hf : Admits s.ctx.classes.Inherits τ target f) : s.Below (p.enter target f) τ := by
  intro c g hg
  rw [entryOf_enter hlt] at hg
  split at hg
  next hc =>
    cases hg
    exact hc ▸ hf
  next => exact hτ hg

/-- A frame that an assignment above admits can be carried on, and the result stays below. -/
theorem flow_succeeds (hg : s.ctx.classes.Grounded) {origin target : Nat} (hτ : s.Below p τ)
    (hlt : target < p.entries.length) (hf : Admits s.ctx.classes.Inherits τ target f) :
    ∃ p', s.flow origin p target f = .ok p' ∧ s.Below p' τ ∧
      p'.entries.length = p.entries.length := by
  cases hold : p.entries[target] with
  | none =>
    refine ⟨_, ?_, below_enter hlt hτ hf, by simp [enter]⟩
    unfold flow
    rw [getElem?_eq_getElem hlt, hold]
    rfl
  | some old =>
    have hold' : p.entryOf target = some old := by
      rw [entryOf_eq_some, getElem?_eq_getElem hlt, hold]
    obtain ⟨u, hu, hfu⟩ := hf
    obtain ⟨u', hu', hold''⟩ := hτ hold'
    rw [hu] at hu'
    cases hu'
    obtain ⟨new, hj, hnew⟩ := hg.joinFrames_least hold'' hfu
    refine ⟨_, flow_of_join hold' hj, ?_, ?_⟩
    · split
      · exact hτ
      · exact below_enter hlt hτ ⟨u, hu, hnew⟩
    · split
      · rfl
      · simp [enter]

/-- Spreading a block stays below a consistent assignment, and does not fail if there is one. -/
theorem spread_succeeds (hg : s.ctx.classes.Grounded)
    (hc : s.Consistent s.ctx.classes.Inherits entry τ) (hτ : s.Below p τ)
    (hlen : p.entries.length = s.graph.blocks.length) (hf : p.entryOf b = some f) :
    ∃ p', s.spread p b = .ok p' ∧ s.Below p' τ ∧ p'.entries.length = p.entries.length := by
  obtain ⟨u, hu, hfu⟩ := hτ hf
  obtain ⟨B, hB, seenτ, g, hw, hcaught, hsuccs⟩ := hc.block hu
  obtain ⟨seen, f', hw', hf', hseen⟩ := hw.mono hg hfu
  -- What the walk from the smaller frame meets is admitted wherever the greater frames are.
  have hadmits : ∀ x ∈ seen, ∀ h ∈ s.graph.guards, h.covers x.1 →
      Admits s.ctx.classes.Inherits τ h.entry (caughtFrame h x.2) := by
    intro x hx h hh hcov
    obtain ⟨y, hy, hxy, hle⟩ := forall₂_exists_mem hseen hx
    exact (hcaught y hy h hh (hxy ▸ hcov)).under hg.bounds (hle.withStack _)
  have hin : ∀ {c k}, Admits s.ctx.classes.Inherits τ c k → c < s.graph.blocks.length := by
    rintro c k ⟨v, hv, _⟩
    obtain ⟨C, hC, _⟩ := hc.block hv
    exact lt_of_getElem? hC
  let below (q : Propagation) : Prop :=
    s.Below q τ ∧ q.entries.length = p.entries.length
  have hflow : ∀ {origin c k q}, Admits s.ctx.classes.Inherits τ c k → below q →
      ∃ q', s.flow origin q c k = .ok q' ∧ below q' := by
    intro origin c k q hk hq
    have hlt : c < q.entries.length := by rw [hq.2, hlen]; exact hin hk
    obtain ⟨q', hq', hbelow, hl⟩ := flow_succeeds hg hq.1 hlt hk
    exact ⟨q', hq', hbelow, hl.trans hq.2⟩
  have hvisit : ∀ x ∈ seen, ∀ q, below q → ∃ q', s.flowToHandlers q x.1 x.2 = .ok q' ∧ below q' :=
    fun x hx q hq => foldlM_succeeds below (fun h hh q hq =>
      hflow (hadmits x hx h (mem_filter.mp hh).1 (mem_filter.mp hh).2) hq) hq
  have hexit : ∀ c ∈ B.succs, ∀ q, below q → ∃ q', s.flow B.last q c f' = .ok q' ∧ below q' :=
    fun c hc q hq => hflow ((hsuccs c hc).under hg.bounds hf') hq
  obtain ⟨p₁, hp₁, hb₁⟩ := foldlM_succeeds below hvisit ⟨hτ, rfl⟩
  obtain ⟨r, hwalk⟩ := walk_of_walks hw' hp₁ []
  obtain ⟨p₂, hp₂, hb₂⟩ := foldlM_succeeds below hexit hb₁
  refine ⟨p₂, ?_, hb₂.1, hb₂.2⟩
  unfold spread
  rw [bind_eq_ok]
  refine ⟨B, Attempt.ofOption_eq_ok.mpr hB, ?_⟩
  rw [bind_eq_ok]
  refine ⟨f, Attempt.ofOption_eq_ok.mpr hf, ?_⟩
  rw [bind_eq_ok]
  exact ⟨(p₁, ⟨f', r⟩), hwalk, hp₂⟩

/-- Every round of a run stays below a consistent assignment. -/
theorem Rounds.stays_below (hg : s.ctx.classes.Grounded)
    (hc : s.Consistent s.ctx.classes.Inherits entry τ)
    (hu : s.Underway s.ctx.classes.Inherits entry p) (hτ : s.Below p τ) (hr : s.Rounds n p q) :
    s.Below q τ := by
  induction hr with
  | refl => exact hτ
  | @step n c p p' q hcq hs _ ih =>
    obtain ⟨f, hf⟩ := hu.queued hcq
    obtain ⟨p₁, hp₁, hbelow, _⟩ := spread_succeeds hg hc (p := p.take c) hτ hu.length hf
    rw [hs] at hp₁
    cases hp₁
    exact ih (hu.round hg.bounds hs) hbelow

theorem below_initial (hne : s.graph.blocks ≠ [])
    (hc : s.Consistent s.ctx.classes.Inherits entry τ) : s.Below (s.initial entry) τ := by
  intro c g hg
  rw [entryOf_initial hne] at hg
  split at hg
  next h0 =>
    cases hg
    exact h0 ▸ hc.entry
  next => cases hg

end Subject

end Resumable
