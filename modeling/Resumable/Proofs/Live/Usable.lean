import Resumable.Proofs.Live.Solution

/-!
# Live locals can be read

A local that is live is read on some way that starts here, before it is written. Frames only become
greater along a way, and an unusable type stays unusable, so the local has a usable type wherever it
is live. What is live after a call can therefore be captured.
-/

namespace Resumable

open List

/-- A local has a usable type. -/
def Frame.CanRead (F : Frame) (v : UInt32) : Prop := ∃ t, F.locals[v.toNat]? = some t ∧ t.Usable

theorem Frame.Under.canRead {I : Text → Text → Prop} {F G : Frame} {v : UInt32} (h : F.Under I G)
    (hv : G.CanRead v) : F.CanRead v := by
  obtain ⟨t, ht, hu⟩ := hv
  obtain ⟨s, hs, hst⟩ := forall₂_getElem? h.locals ht
  exact ⟨s, hs, (hst.usable hu).1⟩

theorem Instr.Yields.canRead {ctx : TypingContext} {i : Instr} {F F' : Frame} {v : UInt32}
    (hy : i.Yields ctx F F') (hi : i ≠ .store v) (hv : F'.CanRead v) : F.CanRead v := by
  by_cases hs : ∃ n, i = .store n
  · obtain ⟨n, rfl⟩ := hs
    cases hy with
    | store hn =>
      obtain ⟨t, ht, hu⟩ := hv
      have hne : n.toNat ≠ v.toNat := fun h => hi (congrArg _ (UInt32.toNat_inj.mp h))
      exact ⟨t, by rwa [getElem?_set_ne hne] at ht, hu⟩
  · have hlocals := hy.locals_eq fun n hn => hs ⟨n, hn⟩
    unfold Frame.CanRead at *
    rwa [hlocals] at hv

/-- A local is needed because it is read here, or because it is needed later and not written
here. -/
theorem Instr.Needs.of_local {i : Instr} {locals base height : Nat} {after : UInt32 → Prop}
    {v : UInt32} (hv : i.Needs locals base height after v) (hlt : v.toNat < locals) :
    i = .load v ∨ (i ≠ .store v ∧ after v) := by
  unfold Needs at hv
  split at hv
  · exact .inr ⟨Instr.noConfusion, hv.2⟩
  · rcases hv with rfl | hv
    · exact .inl rfl
    · exact .inr ⟨Instr.noConfusion, hv.2⟩
  · rcases hv with hv | hv
    · omega
    · exact .inr ⟨fun h => hv.1 (Instr.store.inj h).symm, hv.2.2⟩
  · rename_i hstore
    rcases hv with hv | hv
    · omega
    · exact .inr ⟨hstore v, hv.2⟩

namespace Liveness

variable {l : Liveness} {ctx : TypingContext} {handlers : List Handler} {splits : List Int}
  {entry : Frame} {E : List BitSet} {b i : Nat} {B : Block} {F : Frame} {v : UInt32}

/-- Every local that a table says is needed at an entry has a usable type there. -/
def Readable (l : Liveness) (E : List BitSet) : Prop :=
  ∀ ⦃b : Nat⦄ ⦃F : Frame⦄ ⦃v : UInt32⦄, l.analysis.entryOf b = some F →
    (needAt E b).contains v → v.toNat < l.locals → F.CanRead v

section

variable (hl : l.Fits ctx handlers splits entry) (hE : l.Readable E)

include hl hE

theorem Fits.entry_canRead {j : Nat} (hj : l.analysis.graph.IsStart j)
    (hF : l.analysis.frameAt j = some F)
    (hv : (needAt E (l.analysis.graph.blockNumber j)).contains v) (hlt : v.toNat < l.locals) :
    F.CanRead v := by
  obtain ⟨k, hk⟩ := hl.reached hF
  obtain ⟨C, hC, rfl⟩ := hj
  have hstart := (hl.starts hC hk).1
  rw [hF] at hstart
  cases hstart
  exact hE hk hv hlt

/-- What handlers need can be read before every instruction that they cover. -/
theorem Fits.caught_canRead (hB : l.analysis.graph.blocks[b]? = some B) (h1 : B.start ≤ i)
    (h2 : i < B.stop) (hF : l.analysis.frameAt i = some F)
    (hv : (l.liveCaught E B).contains v) (hlt : v.toNat < l.locals) : F.CanRead v := by
  unfold liveCaught at hv
  rw [BitSet.contains_below, contains_entriesOf, hl.divides.excSuccs hB] at hv
  obtain ⟨_, c, hc, hv⟩ := hv
  rw [mem_eraseDups, mem_map] at hc
  obtain ⟨G, hG, rfl⟩ := hc
  obtain ⟨hG, hcov⟩ := mem_filter.mp hG
  obtain ⟨h, hh, _, hentry, hcovers⟩ := hl.divides.mem_guards hG
  rw [hentry] at hv
  have hcovi : h.covers i = true := by
    rw [hl.divides.covers_start hh hB h1 h2, ← hcovers]
    exact hcov
  obtain ⟨T, hT, hle⟩ := hl.typing.caught hF hh hcovi
  exact hle.canRead (hl.entry_canRead hE (hl.divides.target_start h hh) hT hv hlt)

/-- What is needed where a block is left can be read there. -/
theorem Fits.out_canRead {instr : Instr} {F' : Frame}
    (hB : l.analysis.graph.blocks[b]? = some B) (hi : l.body[B.last]? = some instr)
    (hnext : ∀ j ∈ Graph.nexts instr B.last,
      Admits (fun _ _ => True) l.analysis.frameAt j F')
    (hv : (liveOut E B).contains v) (hlt : v.toNat < l.locals) : F'.CanRead v := by
  unfold liveOut at hv
  rw [contains_entriesOf, hl.divides.succs hB hi] at hv
  obtain ⟨c, hc, hv⟩ := hv
  rw [mem_eraseDups, mem_map] at hc
  obtain ⟨j, hj, rfl⟩ := hc
  obtain ⟨G, hG, hle⟩ := hnext j hj
  exact hle.canRead (hl.entry_canRead hE (hl.divides.isStart_of_last hB hi hj) hG hv hlt)

omit hE in
theorem Fits.transfer_canRead {instr : Instr} {F' : Frame} {after before : BitSet}
    (hF : l.analysis.frameAt i = some F) (hi : l.body[i]? = some instr)
    (hy : instr.Yields ctx F F') (h : l.transfer instr F.stack.length after = .ok before)
    (hafter : after.contains v → F'.CanRead v ∨ F.CanRead v)
    (hv : before.contains v) (hlt : v.toNat < l.locals) : F.CanRead v := by
  obtain ⟨pops, outs, he, _⟩ := hy.stackEffect
  rw [hl.mem_transfer hF hi (hl.unit ▸ he) h] at hv
  rcases hv.of_local hlt with rfl | ⟨hstore, hv⟩
  · cases hy with
    | load hn hu => exact ⟨_, hn, hu⟩
  · rcases hafter hv with hv | hv
    · exact hy.canRead hstore hv
    · exact hv

/-- What is needed before an instruction can be read there. The induction goes against the flow,
from the end of the block. -/
theorem Fits.walkBack_canRead (hB : l.analysis.graph.blocks[b]? = some B) {n : Nat} {live : BitSet}
    (h1 : B.start ≤ i) (h2 : i + (n + 1) = B.stop) (hF : l.analysis.frameAt i = some F)
    (hw : l.walkBack (l.liveCaught E B) (range' i (n + 1)).reverse (liveOut E B) = .ok live)
    (hv : live.contains v) (hlt : v.toNat < l.locals) : F.CanRead v := by
  induction n generalizing i F live v with
  | zero =>
    obtain ⟨instr, F₁, before, hi, hF₁, htr, hw⟩ := walkBack_cons_eq_ok.mp hw
    cases hw
    rw [hF] at hF₁
    cases hF₁
    obtain ⟨F', hy, hnext⟩ := hl.typing.step_at hF hi
    obtain rfl : B.last = i := by
      unfold Block.last
      omega
    refine hl.transfer_canRead hF hi hy htr (fun hv => ?_) hv hlt
    rcases BitSet.contains_union.mp hv with hv | hv
    · exact .inl (hl.out_canRead hE hB hi hnext hv hlt)
    · exact .inr (hl.caught_canRead hE hB h1 (by omega) hF hv hlt)
  | succ n ih =>
    rw [range'_succ, reverse_cons, walkBack_append] at hw
    obtain ⟨mid, hmid, hw⟩ := hw
    obtain ⟨instr, F₁, before, hi, hF₁, htr, hw⟩ := walkBack_cons_eq_ok.mp hw
    cases hw
    rw [hF] at hF₁
    cases hF₁
    obtain ⟨F', hy, hnext⟩ := hl.typing.step_at hF hi
    obtain ⟨G, hG, hle⟩ := hnext (i + 1) (by
      rw [hl.divides.inner hB h1 (by omega) hi]
      exact mem_cons_self)
    refine hl.transfer_canRead hF hi hy htr (fun hv => ?_) hv hlt
    rcases BitSet.contains_union.mp hv with hv | hv
    · exact .inl (hle.canRead (ih (by omega) (by omega) hG hmid hv hlt))
    · exact .inr (hl.caught_canRead hE hB h1 (by omega) hF hv hlt)

omit hE in
theorem Fits.readable_entries (h : l.entries = .ok E) : l.Readable E := by
  refine (settle_induction
    (fun E => E.length = l.analysis.graph.blocks.length ∧ l.Readable E) ?_ ⟨?_, ?_⟩ h).2
  · rintro B hB E F live ⟨hlen, hE⟩ hF hlive
    have hid := hl.block_id hB
    have hlt := lt_of_getElem? hid
    refine ⟨length_learn.trans hlen, fun b F' v hF' hv hlocal => ?_⟩
    rcases (contains_needAt_learn (by omega)).mp hv with hv | ⟨rfl, hin⟩
    · exact hE hF' hv hlocal
    · have hwithin := hl.divides.within hid
      obtain ⟨n, hn⟩ : ∃ n, B.stop - B.start = n + 1 := ⟨B.stop - B.start - 1, by omega⟩
      unfold liveIn Subject.members at hlive
      rw [hn] at hlive
      exact hl.walkBack_canRead hE hid (Nat.le_refl _) (by omega) (hl.starts hid hF').1 hlive hin
        hlocal
  · exact length_map _
  · intro b F v _ hv
    rw [needAt_unknown] at hv
    simp at hv

end

/-- **Locals that are live after an instruction which ends its block can be read before it,** if it
does not write them. -/
theorem Fits.canRead_of_liveAfter (hl : l.Fits ctx handlers splits entry) (h : l.entries = .ok E)
    {instr : Instr} (hB : l.analysis.graph.blocks[l.analysis.graph.blockNumber i]? = some B)
    (hstop : B.stop = i + 1) (h1 : B.start ≤ i) (hF : l.analysis.frameAt i = some F)
    (hi : l.body[i]? = some instr) (hstore : instr ≠ .store v) (hv : l.LiveAfter E i v)
    (hlt : v.toNat < l.locals) : F.CanRead v := by
  have hE := hl.readable_entries h
  obtain ⟨F', hy, hnext⟩ := hl.typing.step_at hF hi
  obtain rfl : B.last = i := by
    unfold Block.last
    omega
  rcases BitSet.contains_union.mp ((liveAfter_last hB hstop).mp hv) with hv | hv
  · exact hy.canRead hstore (hl.out_canRead hE hB hi hnext hv hlt)
  · exact hl.caught_canRead hE hB h1 (by omega) hF hv hlt

end Liveness

end Resumable
