import Mathlib.Logic.Relation
import Resumable.Flow.Reach
import Resumable.Proofs.Flow.Graph

/-!
# What a search for blocks finds

A search leaves every block that it has seen, since each is pending once at most besides the roots
and there is a round for each of them. So what it finds is closed: it holds the roots and, with a
block, the entries of its handlers and, unless the block is cut, its successors. And it sees only
blocks that edges lead to, so that what it finds are exactly the blocks that can be reached.
-/

namespace Resumable

open List

namespace Search

variable {g : Graph} {cut : Nat → Bool} {n b c : Nat} {s s' : Search} {cs : List Nat}

/-- The number of blocks that were not seen yet. -/
def unseen (n : Nat) (s : Search) : Nat := ((List.range n).filter (· ∉ s.seen)).length

/-- Rounds that a search needs at most. -/
def rounds (n : Nat) (s : Search) : Nat := s.pending.length + s.unseen n

theorem see_of_mem (h : b ∈ s.seen) : s.see b = s := if_pos h

theorem see_of_not_mem (h : b ∉ s.seen) : s.see b = ⟨b :: s.seen, b :: s.pending⟩ := if_neg h

theorem rounds_see (hb : b < n) : (s.see b).rounds n ≤ s.rounds n := by
  by_cases h : b ∈ s.seen
  · exact Nat.le_of_eq (congrArg (rounds n) (see_of_mem h))
  · rw [see_of_not_mem h]
    have hless : unseen n ⟨b :: s.seen, b :: s.pending⟩ < s.unseen n := by
      unfold unseen
      have hsub : (range n).filter (· ∉ b :: s.seen) =
          ((range n).filter (· ∉ s.seen)).filter (· ≠ b) := by
        rw [filter_filter]
        exact filter_congr fun c _ => by simp
      rw [hsub]
      refine length_filter_lt_length_iff_exists.mpr ⟨b, ?_, by simp⟩
      exact mem_filter.mpr ⟨mem_range.mpr hb, by simpa using h⟩
    unfold rounds
    simp only [length_cons]
    omega

/-- What seeing some blocks changes: they are seen, and those that are new are pending. -/
theorem foldl_see (hcs : ∀ c ∈ cs, c < n) :
    (cs.foldl see s).rounds n ≤ s.rounds n ∧ (∀ b ∈ s.seen, b ∈ (cs.foldl see s).seen) ∧
      (∀ c ∈ cs, c ∈ (cs.foldl see s).seen) ∧ (∀ b ∈ s.pending, b ∈ (cs.foldl see s).pending) ∧
      ∀ b ∈ (cs.foldl see s).seen, b ∈ s.seen ∨ b ∈ cs ∧ b ∈ (cs.foldl see s).pending := by
  induction cs generalizing s with
  | nil => simp
  | cons c cs ih =>
    obtain ⟨h1, h2, h3, h4, h5⟩ := ih (s := s.see c) fun c hc => hcs c (mem_cons_of_mem _ hc)
    have hc : c ∈ (s.see c).seen := by
      unfold see
      split <;> simp_all
    have hseen : ∀ b ∈ s.seen, b ∈ (s.see c).seen := by
      intro b hb
      unfold see
      split <;> simp_all
    have hpending : ∀ b ∈ s.pending, b ∈ (s.see c).pending := by
      intro b hb
      unfold see
      split <;> simp_all
    rw [foldl_cons]
    refine ⟨Nat.le_trans h1 (rounds_see (hcs c mem_cons_self)),
      fun b hb => h2 b (hseen b hb), ?_, fun b hb => h4 b (hpending b hb), ?_⟩
    · intro b hb
      rcases mem_cons.mp hb with rfl | hb
      · exact h2 _ hc
      · exact h3 b hb
    · intro b hb
      rcases h5 b hb with hb' | ⟨hb', hp⟩
      · by_cases h : c ∈ s.seen
        · rw [see_of_mem h] at hb'
          exact .inl hb'
        · rw [see_of_not_mem h] at hb' h4
          rcases mem_cons.mp hb' with rfl | hb'
          · refine .inr ⟨mem_cons_self, ?_⟩
            rw [see_of_not_mem h]
            exact h4 _ mem_cons_self
          · exact .inl hb'
      · exact .inr ⟨mem_cons_of_mem _ hb', hp⟩

theorem mem_pending_foldl_see (h : b ∈ (cs.foldl see s).pending) : b ∈ s.pending ∨ b ∈ cs := by
  induction cs generalizing s with
  | nil => exact .inl h
  | cons c cs ih =>
    rcases ih h with h | h
    · unfold see at h
      split at h
      next => exact .inl h
      next =>
        rcases mem_cons.mp h with rfl | h
        · exact .inr mem_cons_self
        · exact .inl h
    · exact .inr (mem_cons_of_mem c h)

/-- Every block that was seen is pending or was left. -/
def Closing (g : Graph) (cut : Nat → Bool) (s : Search) : Prop :=
  ∀ b ∈ s.seen, b ∈ s.pending ∨ ∃ cs, next g cut b = .ok cs ∧ ∀ c ∈ cs, c ∈ s.seen

theorem settle_closed
    (hnext : ∀ {b cs}, next g cut b = .ok cs → ∀ c ∈ cs, c < g.blocks.length) {rounds : Nat}
    (hr : s.rounds g.blocks.length ≤ rounds) (hs : s.Closing g cut)
    (h : settle g cut rounds s = .ok s') :
    (∀ b ∈ s.seen, b ∈ s'.seen) ∧
      ∀ b ∈ s'.seen, ∃ cs, next g cut b = .ok cs ∧ ∀ c ∈ cs, c ∈ s'.seen := by
  have hempty : ∀ {s : Search}, s.Closing g cut → s.pending = [] →
      ∀ b ∈ s.seen, ∃ cs, next g cut b = .ok cs ∧ ∀ c ∈ cs, c ∈ s.seen := by
    intro s hs hp b hb
    rcases hs b hb with hb' | hdone
    · rw [hp] at hb'
      cases hb'
    · exact hdone
  induction rounds generalizing s with
  | zero =>
    cases h
    refine ⟨fun _ hb => hb, hempty hs (eq_nil_of_length_eq_zero ?_)⟩
    unfold Search.rounds at hr
    omega
  | succ rounds ih =>
    unfold settle at h
    split at h
    next hp =>
      cases h
      exact ⟨fun _ hb => hb, hempty hs hp⟩
    next c pending hp =>
      obtain ⟨cs, hcs, h⟩ := bind_eq_ok.mp h
      obtain ⟨h1, h2, h3, h4, h5⟩ :=
        foldl_see (s := { s with pending := pending }) (hnext hcs)
      have hclosing : (cs.foldl see { s with pending := pending }).Closing g cut := by
        intro b hb
        rcases h5 b hb with hb | ⟨_, hb⟩
        · rcases hs b hb with hb' | ⟨cs', hcs', hin⟩
          · rw [hp] at hb'
            rcases mem_cons.mp hb' with rfl | hb'
            · exact .inr ⟨cs, hcs, h3⟩
            · exact .inl (h4 b hb')
          · exact .inr ⟨cs', hcs', fun c hc => h2 c (hin c hc)⟩
        · exact .inl hb
      have hless : (cs.foldl see { s with pending := pending }).rounds g.blocks.length ≤
          rounds := by
        have : s.rounds g.blocks.length =
            Search.rounds g.blocks.length { s with pending := pending } + 1 := by
          unfold Search.rounds
          rw [hp, length_cons, Nat.add_right_comm]
          rfl
        omega
      obtain ⟨h6, h7⟩ := ih hless hclosing h
      exact ⟨fun b hb => h6 b (h2 b hb), h7⟩

/-- What leaving a block keeps, a search keeps of all that it sees. -/
theorem settle_induction (motive : Nat → Prop)
    (hnext : ∀ {b cs}, motive b → next g cut b = .ok cs → ∀ c ∈ cs, motive c) {rounds : Nat}
    (hseen : ∀ b ∈ s.seen, motive b) (hpending : ∀ b ∈ s.pending, b ∈ s.seen)
    (hcs : ∀ {b cs}, next g cut b = .ok cs → ∀ c ∈ cs, c < g.blocks.length)
    (h : settle g cut rounds s = .ok s') : ∀ b ∈ s'.seen, motive b := by
  induction rounds generalizing s with
  | zero =>
    cases h
    exact hseen
  | succ rounds ih =>
    unfold settle at h
    split at h
    next =>
      cases h
      exact hseen
    next c pending hp =>
      obtain ⟨cs, hc, h⟩ := bind_eq_ok.mp h
      obtain ⟨-, h2, h3, -, h5⟩ := foldl_see (s := { s with pending := pending }) (hcs hc)
      have hc' : motive c := hseen c (hpending c (by rw [hp]; exact mem_cons_self))
      refine ih (fun b hb => ?_) (fun b hb => ?_) h
      · rcases h5 b hb with hb | ⟨hb, -⟩
        · exact hseen b hb
        · exact hnext hc' hc b hb
      · rcases mem_pending_foldl_see hb with hb | hb
        · exact h2 b (hpending b (by rw [hp]; exact mem_cons_of_mem c hb))
        · exact h3 b hb

end Search

namespace Graph

variable {is : List Instr} {handlers : List Handler} {splits : List Int} {g : Graph}
  {roots found : List Nat} {cut : Nat → Bool}

theorem Divides.next_lt (hd : g.Divides is handlers splits) {b : Nat} {cs : List Nat}
    (h : Search.next g cut b = .ok cs) : ∀ c ∈ cs, c < g.blocks.length := by
  obtain ⟨B, hB, h⟩ := bind_eq_ok.mp h
  have hB := Attempt.ofOption_eq_ok.mp hB
  obtain rfl := pure_eq_ok.mp h
  intro c hc
  split at hc
  · exact hd.excSuccs_lt hB c hc
  · exact (mem_append.mp hc).elim (hd.succs_lt hB c) (hd.excSuccs_lt hB c)

/-- Blocks that hold their handlers and, unless they are cut, their successors. -/
def Closed (g : Graph) (cut : Nat → Bool) (found : List Nat) : Prop :=
  ∀ b ∈ found, ∃ B, g.blocks[b]? = some B ∧ (∀ c ∈ B.excSuccs, c ∈ found) ∧
    (cut b = false → ∀ c ∈ B.succs, c ∈ found)

theorem reachable_eq_ok :
    g.reachable roots cut = .ok found ↔ (∀ r ∈ roots, r < g.blocks.length) ∧
      ∃ s, Search.settle g cut (roots.length + g.blocks.length) ⟨roots, roots.reverse⟩ = .ok s ∧
        (range g.blocks.length).filter (· ∈ s.seen) = found := by
  unfold reachable
  dsimp only
  by_cases h : roots.any (g.blocks.length ≤ ·)
  · rw [if_pos h]
    refine iff_of_false (fun ht => ?_) fun ⟨hroots, _⟩ => ?_
    · obtain ⟨_, ht, _⟩ := bind_eq_ok.mp ht
      exact throw_ne_ok ht
    obtain ⟨r, hr, hle⟩ := any_eq_true.mp h
    have := hroots r hr
    rw [decide_eq_true_eq] at hle
    omega
  · rw [if_neg h]
    have hroots : ∀ r ∈ roots, r < g.blocks.length := by simpa using h
    rw [bind_eq_ok]
    simp only [pure_eq_ok]
    exact ⟨fun hs => ⟨hroots, hs⟩, And.right⟩

/-- **What a search finds holds its roots and is closed.** -/
theorem Divides.reachable_closed (hd : g.Divides is handlers splits)
    (h : g.reachable roots cut = .ok found) :
    (∀ r ∈ roots, r ∈ found) ∧ g.Closed cut found := by
  obtain ⟨hroots, s, hs, rfl⟩ := reachable_eq_ok.mp h
  have hrounds : Search.rounds g.blocks.length ⟨roots, roots.reverse⟩ ≤
      roots.length + g.blocks.length := by
    unfold Search.rounds Search.unseen
    have := length_filter_le (· ∉ roots) (range g.blocks.length)
    rw [length_range] at this
    rw [length_reverse]
    exact Nat.add_le_add_left this _
  obtain ⟨hseen, hclosed⟩ := Search.settle_closed hd.next_lt hrounds
    (fun b hb => .inl (mem_reverse.mpr hb)) hs
  have hmem : ∀ b, b < g.blocks.length → b ∈ s.seen →
      b ∈ (range g.blocks.length).filter (· ∈ s.seen) := fun b hlt hb =>
    mem_filter.mpr ⟨mem_range.mpr hlt, by simpa using hb⟩
  refine ⟨fun r hr => hmem r (hroots r hr) (hseen r hr), fun b hb => ?_⟩
  obtain ⟨cs, hnext, hin⟩ := hclosed b (by simpa using (mem_filter.mp hb).2)
  have hlt := hd.next_lt hnext
  obtain ⟨B, hB, hnext⟩ := bind_eq_ok.mp hnext
  obtain rfl := pure_eq_ok.mp hnext
  refine ⟨B, Attempt.ofOption_eq_ok.mp hB, fun c hc => ?_, fun hcut c hc => ?_⟩
  · have hc' : c ∈ if cut b = true then B.excSuccs else B.succs ++ B.excSuccs := by
      split
      · exact hc
      · exact mem_append_right _ hc
    exact hmem c (hlt c hc') (hin c hc')
  · have hc' : c ∈ if cut b = true then B.excSuccs else B.succs ++ B.excSuccs := by
      rw [hcut]
      exact mem_append_left _ hc
    exact hmem c (hlt c hc') (hin c hc')

/-! ## Reachable blocks -/

/-- The edges of a graph. A block that is cut is not left by its normal edges. -/
inductive Edge (g : Graph) (cut : Nat → Bool) : Nat → Nat → Prop
  | succ {b c : Nat} {B : Block} (hB : g.blocks[b]? = some B) (hcut : cut b = false)
      (hc : c ∈ B.succs) : Edge g cut b c
  | handler {b c : Nat} {B : Block} (hB : g.blocks[b]? = some B) (hc : c ∈ B.excSuccs) :
      Edge g cut b c

/-- What is closed holds all blocks that edges from it lead to. -/
theorem Closed.mem_of_edges (h : g.Closed cut found) {b c : Nat} (hb : b ∈ found)
    (he : Relation.ReflTransGen (g.Edge cut) b c) : c ∈ found := by
  induction he with
  | refl => exact hb
  | tail _ he ih =>
    obtain ⟨B, hB, hexc, hsuccs⟩ := h _ ih
    cases he with
    | succ hB' hcut hc =>
      rw [hB] at hB'
      cases hB'
      exact hsuccs hcut _ hc
    | handler hB' hc =>
      rw [hB] at hB'
      cases hB'
      exact hexc _ hc

theorem edge_of_next {b c : Nat} {cs : List Nat} (h : Search.next g cut b = .ok cs) (hc : c ∈ cs) :
    g.Edge cut b c := by
  obtain ⟨B, hB, h⟩ := bind_eq_ok.mp h
  have hB := Attempt.ofOption_eq_ok.mp hB
  obtain rfl := pure_eq_ok.mp h
  split at hc
  next => exact .handler hB hc
  next hcut =>
    rcases mem_append.mp hc with hc | hc
    · exact .succ hB (Bool.not_eq_true _ ▸ hcut) hc
    · exact .handler hB hc

/-- **A search finds the blocks that edges from its roots lead to,** and no others. -/
theorem Divides.mem_reachable (hd : g.Divides is handlers splits)
    (h : g.reachable roots cut = .ok found) {b : Nat} :
    b ∈ found ↔ ∃ r ∈ roots, Relation.ReflTransGen (g.Edge cut) r b := by
  constructor
  · intro hb
    obtain ⟨-, s, hs, rfl⟩ := reachable_eq_ok.mp h
    refine Search.settle_induction (fun b => ∃ r ∈ roots, Relation.ReflTransGen (g.Edge cut) r b)
      ?_ (fun r hr => ⟨r, hr, .refl⟩) (fun r hr => mem_reverse.mp hr) hd.next_lt hs b ?_
    · rintro b cs ⟨r, hr, hrb⟩ hnext c hc
      exact ⟨r, hr, hrb.tail (edge_of_next hnext hc)⟩
    · simpa using (mem_filter.mp hb).2
  · rintro ⟨r, hr, hrb⟩
    obtain ⟨hroots, hclosed⟩ := hd.reachable_closed h
    exact hclosed.mem_of_edges (hroots r hr) hrb

end Graph

end Resumable
