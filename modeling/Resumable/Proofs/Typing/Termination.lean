import Mathlib.Algebra.Order.BigOperators.Group.Finset
import Mathlib.Tactic.Ring
import Resumable.Proofs.Flow.Graph
import Resumable.Proofs.Typing.Worklist

/-!
# The worklist comes to rest

Every change of an entry frame uses up some of what the frames can still rise, and a round takes a
block from the queue, so the sum of both falls. For blocks without a frame the sum needs a bound on
the height of the stack. Heights do not depend on the order of rounds: a block is first reached from
blocks that were reached before, each of which adds at most one slot for each of its instructions.
-/

namespace Resumable

open Finset

/-- Two sums that differ in one member. -/
theorem sum_range_update {m t : Nat} {u v : Nat → Nat} (ht : t < m)
    (huv : ∀ b, b ≠ t → v b = u b) :
    ∑ b ∈ range m, v b + u t = ∑ b ∈ range m, u b + v t := by
  have hmem : t ∈ range m := mem_range.mpr ht
  have hrest : ∑ b ∈ (range m).erase t, v b = ∑ b ∈ (range m).erase t, u b :=
    sum_congr rfl fun b hb => huv b (ne_of_mem_erase hb)
  rw [← add_sum_erase _ u hmem, ← add_sum_erase _ v hmem]
  omega

namespace Graph

/-- The number of instructions of a block. -/
def sizeOf (g : Graph) (b : Nat) : Nat :=
  match g.blocks[b]? with
  | some B => B.stop - B.start
  | none => 0

theorem Divides.sum_sizeOf_le {g : Graph} {is : List Instr} {handlers : List Handler}
    {splits : List Int} (hd : g.Divides is handlers splits) :
    ∑ b ∈ range g.blocks.length, g.sizeOf b ≤ is.length := by
  have hsum : ∀ b B, g.blocks[b]? = some B → ∑ c ∈ range (b + 1), g.sizeOf c = B.stop := by
    intro b
    induction b with
    | zero =>
      intro B hB
      obtain ⟨B', hB', h0⟩ := hd.first
      rw [hB] at hB'
      cases hB'
      simp [sizeOf, hB, h0]
    | succ b ih =>
      intro B hB
      obtain ⟨C, hC, hstart⟩ := hd.exists_before hB
      have := hd.within hB
      rw [sum_range_succ, ih C hC, sizeOf, hB]
      show _ + (B.stop - B.start) = _
      omega
  cases hlen : g.blocks.length with
  | zero => simp
  | succ k =>
    have hB : g.blocks[k]? = some (g.blocks[k]) := List.getElem?_eq_getElem (by omega)
    rw [hsum k _ hB]
    exact (hd.within hB).2.2

end Graph

namespace Subject

open Propagation

variable {s : Subject} {f : Frame} {p p' q : Propagation} {n b : Nat}

/-- The number of instructions in blocks that have an entry frame. -/
def reached (s : Subject) (p : Propagation) : Nat :=
  ∑ b ∈ range s.graph.blocks.length, if (p.entryOf b).isSome then s.graph.sizeOf b else 0

/-- A stack is no higher than the blocks that were reached allow. -/
def Low (s : Subject) (p : Propagation) : Prop :=
  ∀ ⦃b : Nat⦄ ⦃f : Frame⦄, p.entryOf b = some f →
    f.stack.length + s.graph.sizeOf b ≤ 1 + s.reached p

/-- How often an entry frame can still change, where frames have `n` locals. -/
def slack (s : Subject) (n : Nat) : Option Frame → Nat
  | none => 1 + 259 * (n + (1 + s.body.length))
  | some f => f.climb s.ctx.classes

/-- How many rounds there can still be. -/
def potential (s : Subject) (n : Nat) (p : Propagation) : Nat :=
  ∑ b ∈ range s.graph.blocks.length, s.slack n (p.entryOf b) + p.queue.length

/-! ## One frame -/

theorem reached_enter_of_none (hlt : b < p.entries.length)
    (hlen : p.entries.length = s.graph.blocks.length) (hnone : p.entryOf b = none) :
    s.reached (p.enter b f) = s.reached p + s.graph.sizeOf b := by
  have := sum_range_update (t := b) (hlen ▸ hlt)
    (u := fun c => if (p.entryOf c).isSome then s.graph.sizeOf c else 0)
    (v := fun c => if ((p.enter b f).entryOf c).isSome then s.graph.sizeOf c else 0)
    (fun c hc => by simp only [entryOf_enter hlt, if_neg hc])
  simp only [entryOf_enter hlt, if_true, Option.isSome_some, hnone, Option.isSome_none,
    Bool.false_eq_true, if_false, Nat.add_zero] at this
  simpa only [reached, entryOf_enter hlt] using this

theorem reached_enter_of_some {old : Frame} (hlt : b < p.entries.length)
    (hold : p.entryOf b = some old) : s.reached (p.enter b f) = s.reached p := by
  refine sum_congr rfl fun c _ => ?_
  rw [entryOf_enter hlt]
  by_cases hc : c = b
  · simp [hc, hold]
  · rw [if_neg hc]

theorem potential_enter (hlt : b < p.entries.length)
    (hlen : p.entries.length = s.graph.blocks.length)
    (hfall : f.climb s.ctx.classes < s.slack n (p.entryOf b)) :
    s.potential n (p.enter b f) ≤ s.potential n p := by
  have := sum_range_update (t := b) (hlen ▸ hlt)
    (u := fun c => s.slack n (p.entryOf c))
    (v := fun c => s.slack n ((p.enter b f).entryOf c))
    (fun c hc => by simp only [entryOf_enter hlt, if_neg hc])
  have hb : s.slack n ((p.enter b f).entryOf b) = f.climb s.ctx.classes := by
    rw [entryOf_enter hlt, if_pos rfl]
    rfl
  have hq := length_queue_enter (p := p) (b := b) (f := f)
  simp only [hb] at this
  unfold potential
  omega

/-- What bounds the potential: frames have `n` locals and low stacks. -/
structure Tame (s : Subject) (n : Nat) (p : Propagation) : Prop where
  sized : p.Sized n
  length : p.entries.length = s.graph.blocks.length
  low : s.Low p

theorem Tame.take (ht : s.Tame n p) : s.Tame n (p.take b) := ⟨ht.sized, ht.length, ht.low⟩

theorem reached_le (s : Subject) (p : Propagation) :
    s.reached p ≤ ∑ b ∈ range s.graph.blocks.length, s.graph.sizeOf b :=
  sum_le_sum fun b _ => by split <;> omega

/-- Carrying a frame to a block keeps stacks low and forgets no block. -/
theorem flow_tame {I : Text → Text → Prop} (hb : s.ctx.classes.Bounds I) {origin target : Nat}
    (ht : s.Tame n p) (hf : f.locals.length = n) (hlow : f.stack.length ≤ 1 + s.reached p)
    (h : s.flow origin p target f = .ok p') : s.Tame n p' ∧ s.reached p ≤ s.reached p' := by
  obtain ⟨hsized, hrises, _⟩ := flow_rises hb ht.sized hf h
  have hlength := hrises.length.trans ht.length
  obtain ⟨hlt, ⟨hnone, rfl⟩ | ⟨old, new, hold, hj, rfl⟩⟩ := flow_cases h
  · have hreached := reached_enter_of_none (s := s) (f := f) hlt ht.length hnone
    refine ⟨⟨hsized, hlength, ?_⟩, by omega⟩
    intro c k hk
    rw [entryOf_enter hlt] at hk
    split at hk
    next hc =>
      cases hk
      rw [hc]
      omega
    next =>
      have := ht.low hk
      omega
  · have hlen : old.locals.length = f.locals.length := (ht.sized hold).trans hf.symm
    have hup := (Hierarchy.joinFrames_upper hb hlen hj).1
    by_cases heq : new = old
    · rw [if_pos heq]
      exact ⟨ht, Nat.le_refl _⟩
    · rw [if_neg heq] at hsized hlength ⊢
      have hreached := reached_enter_of_some (s := s) (f := new) hlt hold
      refine ⟨⟨hsized, hlength, ?_⟩, by omega⟩
      intro c k hk
      rw [entryOf_enter hlt] at hk
      rw [hreached]
      split at hk
      next hc =>
        cases hk
        rw [hc, ← hup.stack.length_eq]
        exact ht.low hold
      next => exact ht.low hk

/-- Carrying a frame to a block uses up potential if it changes anything. -/
theorem flow_falls (hsum : ∑ b ∈ range s.graph.blocks.length, s.graph.sizeOf b ≤ s.body.length)
    (hg : s.ctx.classes.Grounded) {origin target : Nat} (ht : s.Tame n p)
    (hf : f.locals.length = n) (hlow : f.stack.length ≤ 1 + s.reached p)
    (h : s.flow origin p target f = .ok p') : s.potential n p' ≤ s.potential n p := by
  obtain ⟨hlt, ⟨hnone, rfl⟩ | ⟨old, new, hold, hj, rfl⟩⟩ := flow_cases h
  · refine potential_enter hlt ht.length ?_
    have hclimb := s.ctx.classes.frame_climb_le f
    have hle := s.reached_le p
    rw [hnone, hf] at *
    show _ < 1 + 259 * (n + (1 + s.body.length))
    omega
  · have hlen : old.locals.length = f.locals.length := (ht.sized hold).trans hf.symm
    have hup := (Hierarchy.joinFrames_upper hg.bounds hlen hj).1
    by_cases heq : new = old
    · rw [if_pos heq]
    · rw [if_neg heq]
      refine potential_enter hlt ht.length ?_
      rw [hold]
      exact hg.frame_climb_lt hup (Ne.symm heq)

/-- What carrying one low frame keeps, spreading a block keeps. -/
theorem Tame.spread_induction (ht : s.Tame n p) (motive : Propagation → Prop) (hp : motive p)
    (hstep : ∀ {origin c : Nat} {k : Frame} {q q' : Propagation}, k.locals.length = n →
      k.stack.length ≤ 1 + s.reached p → motive q → s.flow origin q c k = .ok q' → motive q')
    (h : s.spread p b = .ok p') : motive p' := by
  obtain ⟨B, f, seen, g, hB, hf, hwalks, hmotive⟩ := Subject.spread_induction h
  obtain ⟨hgl, hseen⟩ := hwalks.locals_length
  have hfl : f.locals.length = n := ht.sized hf
  have hheight : g.stack.length ≤ 1 + s.reached p := by
    have h1 := hwalks.stack_length
    have h2 := ht.low hf
    simp only [Graph.sizeOf, hB] at h2
    rw [members, List.length_range'] at h1
    exact h1.trans h2
  refine hmotive motive hp fun hk hq hflow => ?_
  rcases hk with ⟨x, hx, h, -, -, -, rfl⟩ | ⟨-, rfl⟩
  · exact hstep (k := caughtFrame h x.2) ((hseen x hx).trans hfl) (Nat.le_add_right 1 _) hq hflow
  · exact hstep (hgl.trans hfl) hheight hq hflow

/-- Spreading a block keeps stacks low. -/
theorem spread_tame {I : Text → Text → Prop} (hb : s.ctx.classes.Bounds I) (ht : s.Tame n p)
    (h : s.spread p b = .ok p') : s.Tame n p' := by
  refine (ht.spread_induction (fun q => s.Tame n q ∧ s.reached p ≤ s.reached q)
    ⟨ht, Nat.le_refl _⟩ ?_ h).1
  rintro origin c k q q' hk hk' ⟨hq, hle⟩ hflow
  obtain ⟨h1, h2⟩ := flow_tame hb hq hk (by omega) hflow
  exact ⟨h1, by omega⟩

variable (hsum : ∑ b ∈ range s.graph.blocks.length, s.graph.sizeOf b ≤ s.body.length)

include hsum in
/-- Spreading a block does not raise the potential. -/
theorem spread_falls (hg : s.ctx.classes.Grounded) (ht : s.Tame n p)
    (h : s.spread p b = .ok p') : s.potential n p' ≤ s.potential n p := by
  refine (ht.spread_induction (fun q => s.Tame n q ∧ s.reached p ≤ s.reached q ∧
    s.potential n q ≤ s.potential n p) ⟨ht, Nat.le_refl _, Nat.le_refl _⟩ ?_ h).2.2
  rintro origin c k q q' hk hk' ⟨hq, hle, hpot⟩ hflow
  obtain ⟨h1, h2⟩ := flow_tame hg.bounds hq hk (by omega) hflow
  exact ⟨h1, by omega, (flow_falls hsum hg hq hk (by omega) hflow).trans hpot⟩

/-! ## Runs are finite -/

theorem Rounds.tame {I : Text → Text → Prop} (hb : s.ctx.classes.Bounds I) (ht : s.Tame n p)
    {k : Nat} (hr : s.Rounds k p q) : s.Tame n q := by
  induction hr with
  | refl => exact ht
  | step _ hs _ ih => exact ih (spread_tame hb ht.take hs)

theorem potential_take (hb : b ∈ p.queue) : s.potential n (p.take b) + 1 = s.potential n p := by
  have hlen := List.length_erase_of_mem hb
  have hpos := List.length_pos_of_mem hb
  show _ + (p.queue.erase b).length + 1 = _ + p.queue.length
  have hsame : (fun c => s.slack n ((p.take b).entryOf c)) = fun c => s.slack n (p.entryOf c) := rfl
  rw [hsame, hlen]
  omega

include hsum in
/-- Every round takes from the potential. -/
theorem Rounds.length_le (hg : s.ctx.classes.Grounded) (ht : s.Tame n p) {k : Nat}
    (hr : s.Rounds k p q) : k + s.potential n q ≤ s.potential n p := by
  induction hr with
  | refl => omega
  | step hb hs _ ih =>
    have hle := ih (spread_tame hg.bounds ht.take hs)
    have htake := potential_take (s := s) (n := n) hb
    have hfalls := spread_falls hsum hg ht.take hs
    omega

include hsum in
/-- With enough rounds, the run of `settle` ends with an empty queue or in a round that fails. -/
theorem settle_of_potential_le (hg : s.ctx.classes.Grounded) (ht : s.Tame n p) {rounds : Nat}
    (hle : s.potential n p ≤ rounds) :
    (∃ q, s.settle rounds p = .ok q) ∨
      ∃ k q b e, s.Rounds k p q ∧ b ∈ q.queue ∧ s.spread (q.take b) b = .error e := by
  induction rounds generalizing p with
  | zero =>
    have hq : p.queue = [] := by
      refine List.eq_nil_of_length_eq_zero ?_
      unfold potential at hle
      omega
    exact Or.inl ⟨p, by simp [settle, hq]⟩
  | succ rounds ih =>
    cases hq : p.queue with
    | nil => exact Or.inl ⟨p, by simp [settle, hq]⟩
    | cons c queue =>
      have hmem : c ∈ p.queue := by
        rw [hq]
        exact List.mem_cons_self
      have htake : p.take c = { p with queue } := by
        rw [Propagation.take, hq, List.erase_cons_head]
      cases hs : s.spread (p.take c) c with
      | error e => exact Or.inr ⟨0, p, c, e, .refl, hmem, hs⟩
      | ok p' =>
        have h1 := potential_take (s := s) (n := n) hmem
        have h2 := spread_falls hsum hg ht.take hs
        rcases ih (spread_tame hg.bounds ht.take hs) (by omega) with ⟨q, hsettle⟩ | ⟨k, q, d, e, hr, hd, he⟩
        · refine Or.inl ⟨q, ?_⟩
          rw [settle, hq]
          show (do let p ← s.spread { p with queue } c; s.settle rounds p) = .ok q
          rw [← htake, bind_eq_ok]
          exact ⟨p', hs, hsettle⟩
        · exact Or.inr ⟨k + 1, q, d, e, .step hmem hs hr, hd, he⟩

/-! ## The first round -/

theorem tame_initial {entry : Frame} (hne : s.graph.blocks ≠ []) (hstack : entry.stack = []) :
    s.Tame entry.locals.length (s.initial entry) where
  sized := (underway_initial (I := fun _ _ => True) hne).sized
  length := by simp [initial]
  low := by
    intro c f hf
    have hlt : 0 < s.graph.blocks.length := List.length_pos_of_ne_nil hne
    have hf' := hf
    rw [entryOf_initial hne] at hf
    split at hf
    next h0 =>
      cases hf
      have hone : s.graph.sizeOf 0 ≤ s.reached (s.initial entry) := by
        have := single_le_sum (f := fun c =>
          if ((s.initial entry).entryOf c).isSome then s.graph.sizeOf c else 0)
          (fun _ _ => Nat.zero_le _) (mem_range.mpr hlt)
        rw [h0] at hf'
        simpa [reached, hf'] using this
      rw [hstack, h0]
      simp only [List.length_nil]
      omega
    next => cases hf

theorem potential_initial_le {entry : Frame} (hne : s.graph.blocks ≠ [])
    (hstack : entry.stack = []) :
    s.potential entry.locals.length (s.initial entry) ≤ s.enoughRounds entry.locals.length := by
  have hslack : ∀ b ∈ range s.graph.blocks.length,
      s.slack entry.locals.length ((s.initial entry).entryOf b) ≤
        1 + 259 * (entry.locals.length + (1 + s.body.length)) := by
    intro b _
    rw [entryOf_initial hne]
    split
    · have := s.ctx.classes.frame_climb_le entry
      rw [hstack] at this
      simp only [List.length_nil] at this
      show entry.climb s.ctx.classes ≤ _
      omega
    · exact Nat.le_refl _
  have h1 : ∑ b ∈ range s.graph.blocks.length,
      s.slack entry.locals.length ((s.initial entry).entryOf b) ≤
        s.graph.blocks.length * (1 + 259 * (entry.locals.length + (1 + s.body.length))) := by
    have := sum_le_card_nsmul _ _ _ hslack
    rwa [card_range] at this
  have h2 : (s.initial entry).queue.length = 1 := rfl
  unfold potential enoughRounds
  rw [h2]
  generalize s.graph.blocks.length = m at *
  generalize entry.locals.length = k at *
  generalize s.body.length = l at *
  have h3 : 1 + 259 * (k + (1 + l)) ≤ (k + 2 * l + 2) * 2 ^ 40 := by omega
  calc _ ≤ m * (1 + 259 * (k + (1 + l))) + 1 := Nat.add_le_add_right h1 1
    _ ≤ m * ((k + 2 * l + 2) * 2 ^ 40) + (k + 2 * l + 2) * 2 ^ 40 :=
        Nat.add_le_add (Nat.mul_le_mul_left m h3) (by omega)
    _ = (m + 1) * (k + 2 * l + 2) * 2 ^ 40 := by ring

end Subject

end Resumable
