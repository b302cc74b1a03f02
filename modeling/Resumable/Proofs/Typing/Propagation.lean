import Resumable.Proofs.Typing.Walk

/-!
# Assignments of frames to blocks

An assignment gives entry frames to some blocks of a graph. It is consistent if it says enough at
every place that control can come from: at the entry, at the normal successors of a block and, from
before every covered instruction, at the handlers. The lemmas on `Subject.flow` and `Subject.spread`
say what is left to do when frames are carried on: an entry frame that has not been looked at since
it changed is in the queue, and everything else is consistent.
-/

namespace Resumable

/-- An assignment has a frame above `f` at `b`. -/
def Admits (I : Text → Text → Prop) (σ : Nat → Option Frame) (b : Nat) (f : Frame) : Prop :=
  ∃ g, σ b = some g ∧ f.Under I g

namespace Subject

/-- A block can be walked from its entry frame, and what is met is admitted where it can go. -/
def Passes (s : Subject) (I : Text → Text → Prop) (σ : Nat → Option Frame) (B : Block)
    (f : Frame) : Prop :=
  ∃ seen g, s.Walks (members B) f seen g ∧
    (∀ x ∈ seen, ∀ h ∈ s.graph.guards, h.covers x.1 → Admits I σ h.entry (caughtFrame h x.2)) ∧
    ∀ c ∈ B.succs, Admits I σ c g

/-- An assignment that admits the entry frame, and of whose frames all lead to admitted ones. -/
structure Consistent (s : Subject) (I : Text → Text → Prop) (entry : Frame)
    (σ : Nat → Option Frame) : Prop where
  entry : Admits I σ 0 entry
  block : ∀ {b : Nat} {f : Frame}, σ b = some f →
    ∃ B, s.graph.blocks[b]? = some B ∧ s.Passes I σ B f

end Subject

variable {s : Subject} {I : Text → Text → Prop} {σ τ : Nat → Option Frame} {f g : Frame}

theorem Admits.under {h : Hierarchy} (hb : h.Bounds I) {b : Nat} (hg : Admits I σ b g)
    (hfg : f.Under I g) : Admits I σ b f := by
  obtain ⟨k, hk, hgk⟩ := hg
  exact ⟨k, hk, hfg.trans hb hgk⟩

theorem Subject.Passes.mono {B : Block} (hστ : ∀ {b f}, Admits I σ b f → Admits I τ b f)
    (h : s.Passes I σ B f) : s.Passes I τ B f := by
  obtain ⟨seen, g, hw, hh, hs⟩ := h
  exact ⟨seen, g, hw, fun x hx h hh' hc => hστ (hh x hx h hh' hc), fun c hc => hστ (hs c hc)⟩

namespace Propagation

variable {p p' q : Propagation}

/-- The entry frame of a block. -/
def entryOf (p : Propagation) (b : Nat) : Option Frame := (p.entries[b]?).join

theorem entryOf_eq_some {b : Nat} : p.entryOf b = some f ↔ p.entries[b]? = some (some f) := by
  unfold entryOf
  cases p.entries[b]? <;> simp

theorem entryOf_enter {b : Nat} (hb : b < p.entries.length) (c : Nat) :
    (p.enter b f).entryOf c = if c = b then some f else p.entryOf c := by
  show ((p.entries.set b (some f))[c]?).join = _
  by_cases hc : c = b
  · simp [hc, hb]
  · rw [if_neg hc, List.getElem?_set_ne (Ne.symm hc)]
    rfl

theorem mem_queue_enter {b c : Nat} : c ∈ (p.enter b f).queue ↔ c = b ∨ c ∈ p.queue := by
  unfold enter
  split
  next hb =>
    constructor
    · exact Or.inr
    · rintro (rfl | hc)
      · exact hb
      · exact hc
  next => simp [or_comm]

theorem length_queue_enter {b : Nat} : (p.enter b f).queue.length ≤ p.queue.length + 1 := by
  unfold enter
  split
  · exact Nat.le_succ _
  · simp

/-- All frames have the same number of locals. -/
def Sized (n : Nat) (p : Propagation) : Prop :=
  ∀ ⦃b : Nat⦄ ⦃f : Frame⦄, p.entryOf b = some f → f.locals.length = n

/-- Frames have become greater, and where one has changed its block is queued. -/
structure Rises (I : Text → Text → Prop) (p p' : Propagation) : Prop where
  length : p'.entries.length = p.entries.length
  grows : ∀ {b : Nat} {f : Frame}, p.entryOf b = some f → Admits I p'.entryOf b f
  same : ∀ {b : Nat}, b ∉ p'.queue → b ∉ p.queue ∧ p'.entryOf b = p.entryOf b
  queued : ∀ {b : Nat}, b ∈ p'.queue → b ∈ p.queue ∨ ∃ f, p'.entryOf b = some f

theorem Rises.refl (I : Text → Text → Prop) (p : Propagation) : Rises I p p where
  length := rfl
  grows hf := ⟨_, hf, .refl I _⟩
  same hb := ⟨hb, rfl⟩
  queued hb := Or.inl hb

theorem Rises.admits {h : Hierarchy} (hb : h.Bounds I) (hr : Rises I p p') {b : Nat}
    (hf : Admits I p.entryOf b f) : Admits I p'.entryOf b f := by
  obtain ⟨g, hg, hfg⟩ := hf
  exact (hr.grows hg).under hb hfg

theorem Rises.trans {h : Hierarchy} (hb : h.Bounds I) (h1 : Rises I p p') (h2 : Rises I p' q) :
    Rises I p q where
  length := h2.length.trans h1.length
  grows hf := h2.admits hb (h1.grows hf)
  same hb := ⟨(h1.same (h2.same hb).1).1, (h2.same hb).2.trans (h1.same (h2.same hb).1).2⟩
  queued := by
    intro b hb
    rcases h2.queued hb with hb | hb
    · rcases h1.queued hb with hb | ⟨f, hf⟩
      · exact Or.inl hb
      · obtain ⟨g, hg, _⟩ := h2.grows hf
        exact Or.inr ⟨g, hg⟩
    · exact Or.inr hb

/-- An entry frame that is replaced by a greater one, or is the first one. -/
theorem rises_enter {b : Nat} (hb : b < p.entries.length)
    (hf : ∀ old, p.entryOf b = some old → old.Under I f) : Rises I p (p.enter b f) where
  length := by simp [enter]
  grows := by
    intro c old hold
    by_cases hc : c = b
    · subst hc
      exact ⟨f, by rw [entryOf_enter hb, if_pos rfl], hf old hold⟩
    · exact ⟨old, by rw [entryOf_enter hb, if_neg hc, hold], .refl I _⟩
  same := by
    intro c hc
    rw [mem_queue_enter, not_or] at hc
    exact ⟨hc.2, by rw [entryOf_enter hb, if_neg hc.1]⟩
  queued := by
    intro c hc
    rcases mem_queue_enter.mp hc with rfl | hc
    · exact Or.inr ⟨f, by rw [entryOf_enter hb, if_pos rfl]⟩
    · exact Or.inl hc

theorem sized_enter {n b : Nat} (hb : b < p.entries.length) (hp : p.Sized n)
    (hf : f.locals.length = n) : (p.enter b f).Sized n := by
  intro c g hg
  rw [entryOf_enter hb] at hg
  split at hg
  · cases hg
    exact hf
  · exact hp hg

end Propagation

namespace Subject

open Propagation

variable {p p' : Propagation} {n origin target : Nat}

/-! ## Carrying one frame -/

/-- What carrying a frame on can do. -/
theorem flow_cases (h : s.flow origin p target f = .ok p') :
    target < p.entries.length ∧
      ((p.entryOf target = none ∧ p' = p.enter target f) ∨
      ∃ old new, p.entryOf target = some old ∧ s.ctx.classes.joinFrames old f = .ok new ∧
        p' = if new = old then p else p.enter target new) := by
  unfold flow at h
  rw [bind_eq_ok] at h
  obtain ⟨e, he, h⟩ := h
  rw [Attempt.ofOption_eq_ok] at he
  refine ⟨lt_of_getElem? he, ?_⟩
  cases e with
  | none =>
    refine Or.inl ⟨by unfold entryOf; rw [he]; rfl, ?_⟩
    exact (pure_eq_ok.mp h).symm
  | some old =>
    refine Or.inr ⟨old, ?_⟩
    have hold : p.entryOf target = some old := entryOf_eq_some.mpr he
    cases hj : s.ctx.classes.joinFrames old f with
    | error fault =>
      simp only [hj] at h
      obtain ⟨_, _, h⟩ := bind_eq_ok.mp h
      exact absurd h Attempt.fail_ne_ok
    | ok new =>
      simp only [hj] at h
      exact ⟨new, hold, rfl, (pure_eq_ok.mp h).symm⟩

/-- A frame that can be joined with the one that is there. -/
theorem flow_of_join {old new : Frame} (hold : p.entryOf target = some old)
    (hj : s.ctx.classes.joinFrames old f = .ok new) :
    s.flow origin p target f = .ok (if new = old then p else p.enter target new) := by
  unfold flow
  rw [entryOf_eq_some.mp hold]
  simp only [Attempt.ofOption, bind, Except.bind, hj]
  rfl

/-- A frame that is carried on is admitted afterwards. -/
theorem flow_rises (hb : s.ctx.classes.Bounds I) (hp : p.Sized n) (hf : f.locals.length = n)
    (h : s.flow origin p target f = .ok p') :
    p'.Sized n ∧ p.Rises I p' ∧ Admits I p'.entryOf target f := by
  obtain ⟨hlt, ⟨hnone, rfl⟩ | ⟨old, new, hold, hj, rfl⟩⟩ := flow_cases h
  · refine ⟨sized_enter hlt hp hf, rises_enter hlt fun old hold => ?_, f, ?_, .refl I f⟩
    · rw [hnone] at hold
      cases hold
    · rw [entryOf_enter hlt, if_pos rfl]
  · have hlen : old.locals.length = f.locals.length := (hp hold).trans hf.symm
    obtain ⟨h1, h2⟩ := Hierarchy.joinFrames_upper hb hlen hj
    split
    next heq =>
      subst heq
      exact ⟨hp, .refl I p, new, hold, h2⟩
    next =>
      refine ⟨sized_enter hlt hp ?_, rises_enter hlt fun old' hold' => ?_, new, ?_, h2⟩
      · rw [← h1.locals.length_eq, hp hold]
      · rw [hold] at hold'
        cases hold'
        exact h1
      · rw [entryOf_enter hlt, if_pos rfl]

/-! ## Carrying what a walk meets -/

theorem flowToHandlers_rises (hb : s.ctx.classes.Bounds I) (hp : p.Sized n) {i : Nat}
    (hf : f.locals.length = n) (h : s.flowToHandlers p i f = .ok p') :
    p'.Sized n ∧ p.Rises I p' ∧
      ∀ h ∈ s.graph.guards, h.covers i → Admits I p'.entryOf h.entry (caughtFrame h f) := by
  obtain ⟨hs, hr, hall⟩ := foldlM_forall (Sized n) (Rises I)
    (fun h p => Admits I p.entryOf h.entry (caughtFrame h f)) (Rises.refl I) (Rises.trans hb)
    (fun hr => hr.admits hb) (fun h _ c c' hc hflow => flow_rises hb hc hf hflow) hp h
  exact ⟨hs, hr, fun h hh hc => hall h (List.mem_filter.mpr ⟨hh, hc⟩)⟩

/-- What spreading a block does: the frames of a walk are carried to the handlers that cover them, and
the last one to the successors. -/
theorem spread_eq_ok {b : Nat} (h : s.spread p b = .ok p') :
    ∃ B f seen g p₁, s.graph.blocks[b]? = some B ∧ p.entryOf b = some f ∧
      s.Walks (members B) f seen g ∧
      seen.foldlM (fun p x => s.flowToHandlers p x.1 x.2) p = .ok p₁ ∧
      B.succs.foldlM (fun p c => s.flow B.last p c g) p₁ = .ok p' := by
  unfold spread at h
  obtain ⟨B, hB, h⟩ := bind_eq_ok.mp h
  obtain ⟨f, hf, h⟩ := bind_eq_ok.mp h
  obtain ⟨⟨p₁, t⟩, hw, h⟩ := bind_eq_ok.mp h
  rw [Attempt.ofOption_eq_ok] at hB hf
  obtain ⟨seen, hwalks, hfold⟩ := walks_of_walk hw
  exact ⟨B, f, seen, t.frame, p₁, hB, hf, hwalks, hfold, h⟩

/-- What carrying the frames of a walk to handlers and successors keeps, spreading a block keeps. -/
theorem spread_induction {b : Nat} (h : s.spread p b = .ok p') :
    ∃ B f seen g, s.graph.blocks[b]? = some B ∧ p.entryOf b = some f ∧
      s.Walks (members B) f seen g ∧ ∀ motive : Propagation → Prop, motive p →
        (∀ {origin c k q q'},
          ((∃ x ∈ seen, ∃ h ∈ s.graph.guards, h.covers x.1 ∧ c = h.entry ∧ k = caughtFrame h x.2) ∨
            c ∈ B.succs ∧ k = g) →
          motive q → s.flow origin q c k = .ok q' → motive q') → motive p' := by
  obtain ⟨B, f, seen, g, p₁, hB, hf, hwalks, hfold, h⟩ := spread_eq_ok h
  refine ⟨B, f, seen, g, hB, hf, hwalks, fun motive hp hstep => ?_⟩
  have hvisit : ∀ x ∈ seen, ∀ q q', motive q → s.flowToHandlers q x.1 x.2 = .ok q' → motive q' := by
    intro x hx q q' hq hv
    refine foldlM_induction motive (fun h hh q q' hq hflow => ?_) hq hv
    obtain ⟨hh, hcov⟩ := List.mem_filter.mp hh
    exact hstep (.inl ⟨x, hx, h, hh, hcov, rfl, rfl⟩) hq hflow
  have h₁ : motive p₁ := foldlM_induction motive hvisit hp hfold
  exact foldlM_induction motive (fun c hc q q' hq hflow => hstep (.inr ⟨hc, rfl⟩) hq hflow) h₁ h

/-- Spreading a block makes it pass. -/
theorem spread_passes (hb : s.ctx.classes.Bounds I) (hp : p.Sized n) {b : Nat}
    (h : s.spread p b = .ok p') :
    ∃ B f, s.graph.blocks[b]? = some B ∧ p.entryOf b = some f ∧ p'.Sized n ∧ p.Rises I p' ∧
      s.Passes I p'.entryOf B f := by
  obtain ⟨B, f, seen, g, p₁, hB, hf, hwalks, hfold, h⟩ := spread_eq_ok h
  obtain ⟨hgl, hseen⟩ := hwalks.locals_length
  have hfl : f.locals.length = n := hp hf
  let caught (x : Nat × Frame) (p : Propagation) : Prop :=
    ∀ h ∈ s.graph.guards, h.covers x.1 → Admits I p.entryOf h.entry (caughtFrame h x.2)
  have hcaught : ∀ {x p p'}, Rises I p p' → caught x p → caught x p' :=
    fun hr hq h hh hc => hr.admits hb (hq h hh hc)
  obtain ⟨hs₁, hr₁, hall₁⟩ := foldlM_forall (Sized n) (Rises I) caught (Rises.refl I)
    (Rises.trans hb) hcaught
    (fun x hx c c' hc hflow => flowToHandlers_rises hb hc ((hseen x hx).trans hfl) hflow) hp hfold
  obtain ⟨hs₂, hr₂, hall₂⟩ := foldlM_forall (Sized n) (Rises I)
    (fun c p => Admits I p.entryOf c g) (Rises.refl I) (Rises.trans hb)
    (fun hr => hr.admits hb) (fun c _ d d' hd hflow => flow_rises hb hd (hgl.trans hfl) hflow) hs₁ h
  refine ⟨B, f, hB, hf, hs₂, hr₁.trans hb hr₂, seen, g, hwalks, ?_, hall₂⟩
  exact fun x hx h hh hc => hr₂.admits hb (hall₁ x hx h hh hc)

end Subject

end Resumable
