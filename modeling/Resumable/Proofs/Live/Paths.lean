import Resumable.Proofs.Live.Noninterference

/-!
# Live positions and paths

A position is live after an instruction if and only if some path from there uses it before killing
it. Paths follow control and, for locals, lead from any instruction into the handlers that cover it.
That the analysis misses no such path holds of every solution. That it finds nothing else holds of
every table on the way to the solution: a position enters a table only with a path that uses it.
-/

namespace Resumable

open List

/-! ## Uses and kills -/

/-- Does an instruction use a position? It takes the stack slots from `base` up to `height`. -/
def Instr.Uses (i : Instr) (locals base height : Nat) (q : UInt32) : Prop :=
  match i with
  | .load n => q = n
  | .pop => False
  | _ => locals + base ≤ q.toNat ∧ q.toNat < locals + height

/-- Does an instruction kill a position? It takes the stack slots from `base` on. -/
def Instr.Kills (i : Instr) (locals base : Nat) (q : UInt32) : Prop :=
  locals + base ≤ q.toNat ∨ i = .store q

/-- An instruction needs what it uses, and what is needed after it unless it kills that. -/
theorem Instr.needs_iff {u : CodeUnit} {i : Instr} {locals height pops pushes : Nat}
    {after : UInt32 → Prop} {q : UInt32} (he : i.stackEffect u = some (pops, pushes))
    (hp : pops ≤ height) :
    i.Needs locals (height - pops) height after q ↔
      i.Uses locals (height - pops) height q ∨ ¬i.Kills locals (height - pops) q ∧ after q := by
  unfold Needs Uses Kills
  cases i with
  | store n =>
    cases he
    simp only [Instr.store.injEq, not_or, Nat.not_le]
    have hslot : locals + (height - 1) ≤ q.toNat ∧ q.toNat < locals + height ↔
        q.toNat = locals + (height - 1) := by
      omega
    rw [hslot, and_assoc, ne_comm]
    tauto
  | _ => simp

namespace Liveness

variable {l : Liveness} {ctx : TypingContext} {handlers : List Handler} {splits : List Int}
  {entry F : Frame} {E : List BitSet} {i j : Nat} {q : UInt32}

/-- What instruction `i` takes from a stack of known height, if it can be reached. -/
structure Takes (l : Liveness) (i : Nat) (instr : Instr) (base height : Nat) : Prop where
  code : l.body[i]? = some instr
  frame : ∃ F, l.analysis.frameAt i = some F ∧ F.stack.length = height
  pops : ∃ pops pushes, instr.stackEffect l.unit = some (pops, pushes) ∧ height - pops = base

/-- Does instruction `i` use a position? -/
def UsesAt (l : Liveness) (i : Nat) (q : UInt32) : Prop :=
  ∃ instr base height, l.Takes i instr base height ∧ instr.Uses l.locals base height q

/-- Does instruction `i` kill a position? -/
def KillsAt (l : Liveness) (i : Nat) (q : UInt32) : Prop :=
  ∃ instr base height, l.Takes i instr base height ∧ instr.Kills l.locals base q

/-! ## Paths -/

/-- The ways from the exit of an instruction to the entry of another that keep a position. -/
inductive Leads (l : Liveness) (handlers : List Handler) (q : UInt32) : Nat → Nat → Prop
  | next {i j : Nat} {instr : Instr} (hi : l.body[i]? = some instr)
      (hj : j ∈ Graph.nexts instr i) : Leads l handlers q i j
  | caught {i : Nat} {h : Handler} (hh : h ∈ handlers) (hc : h.covers i) (hq : l.isLocal q) :
      Leads l handlers q i h.target.toNat

/-- From the exit of `i` some path leads through instructions that do not kill a position to one that
uses it. -/
def ReadAfter (l : Liveness) (handlers : List Handler) (i : Nat) (q : UInt32) : Prop :=
  ∃ through last, List.IsChain (l.Leads handlers q) (i :: through ++ [last]) ∧
    (∀ j ∈ through, ¬l.KillsAt j q) ∧ l.UsesAt last q

/-- A position is used at `i`, or not killed there and used on some path behind it. -/
def ReadBefore (l : Liveness) (handlers : List Handler) (i : Nat) (q : UInt32) : Prop :=
  l.UsesAt i q ∨ ¬l.KillsAt i q ∧ l.ReadAfter handlers i q

theorem readAfter_iff :
    l.ReadAfter handlers i q ↔ ∃ j, l.Leads handlers q i j ∧ l.ReadBefore handlers j q := by
  constructor
  · rintro ⟨through, last, hchain, hkeep, huse⟩
    cases through with
    | nil => exact ⟨last, (isChain_cons_cons.mp hchain).1, .inl huse⟩
    | cons j through =>
      obtain ⟨hlead, hchain⟩ := isChain_cons_cons.mp hchain
      refine ⟨j, hlead, .inr ⟨hkeep j mem_cons_self, through, last, hchain, ?_, huse⟩⟩
      exact fun k hk => hkeep k (mem_cons_of_mem j hk)
  · rintro ⟨j, hlead, huse | ⟨hkeep, through, last, hchain, hkeeps, huse⟩⟩
    · exact ⟨[], j, isChain_cons_cons.mpr ⟨hlead, .singleton j⟩, by simp, huse⟩
    · exact ⟨j :: through, last, isChain_cons_cons.mpr ⟨hlead, hchain⟩,
        forall_mem_cons.mpr ⟨hkeep, hkeeps⟩, huse⟩

section

variable (hl : l.Fits ctx handlers splits entry)

include hl

/-- An instruction that can be reached takes what its effect says. -/
theorem Fits.takes (hF : l.analysis.frameAt i = some F) :
    ∃ instr pops pushes, l.body[i]? = some instr ∧
      instr.stackEffect l.unit = some (pops, pushes) ∧ pops ≤ F.stack.length ∧
      ∀ {instr' base height}, l.Takes i instr' base height ↔
        instr' = instr ∧ base = F.stack.length - pops ∧ height = F.stack.length := by
  obtain ⟨instr, pops, pushes, hi, he, hp⟩ := hl.effect hF
  refine ⟨instr, pops, pushes, hi, he, hp, fun {instr' base height} => ⟨fun ht => ?_, ?_⟩⟩
  · obtain ⟨hi', ⟨F', hF', rfl⟩, pops', pushes', he', rfl⟩ := ht
    rw [hi] at hi'
    cases hi'
    rw [hF] at hF'
    cases hF'
    rw [he] at he'
    cases he'
    exact ⟨rfl, rfl, rfl⟩
  · rintro ⟨rfl, rfl, rfl⟩
    exact ⟨hi, ⟨F, hF, rfl⟩, pops, pushes, he, rfl⟩

/-- **What is needed before an instruction** is used there, or kept there and needed after it. -/
theorem Fits.liveBefore_iff_uses (hF : l.analysis.frameAt i = some F) :
    l.LiveBefore E i q ↔ l.UsesAt i q ∨ ¬l.KillsAt i q ∧ l.LiveAfter E i q := by
  obtain ⟨instr, pops, pushes, hi, he, hp, htakes⟩ := hl.takes hF
  rw [hl.liveBefore_iff hF hi he, Instr.needs_iff he hp]
  simp [UsesAt, KillsAt, htakes]

/-- Control can only go on to instructions that can be reached. -/
theorem Fits.frame_of_leads (hF : l.analysis.frameAt i = some F) (h : l.Leads handlers q i j) :
    ∃ F', l.analysis.frameAt j = some F' := by
  obtain ⟨instr, _, hi, _, hnext, hcaught⟩ := hl.typing.step hF
  cases h with
  | next hi' hj =>
    rw [hi] at hi'
    cases hi'
    obtain ⟨F', hF', _⟩ := hnext j hj
    exact ⟨F', hF'⟩
  | caught hh hc _ =>
    obtain ⟨F', hF', _⟩ := hcaught _ hh hc
    exact ⟨F', hF'⟩

/-! ## Every path is found -/

/-- A solution follows every edge of a path. -/
theorem Fits.liveAfter_of_leads (hE : l.Solves E) (hF : l.analysis.frameAt i = some F)
    (h : l.Leads handlers q i j) (hj : l.LiveBefore E j q) : l.LiveAfter E i q := by
  have ht := hl.table hE
  cases h with
  | next hi hj' => exact ht.next hF hi hj' hj
  | caught hh hc hq => exact ht.caught hF hh hc hj (of_decide_eq_true hq)

/-- **No path is missed:** what is read on a path is in a solution. -/
theorem Fits.liveAfter_of_readAfter (hE : l.Solves E) (hF : l.analysis.frameAt i = some F)
    (h : l.ReadAfter handlers i q) : l.LiveAfter E i q := by
  obtain ⟨through, last, hchain, hkeep, huse⟩ := h
  induction through generalizing i F with
  | nil =>
    have hlead := (isChain_cons_cons.mp hchain).1
    obtain ⟨F', hF'⟩ := hl.frame_of_leads hF hlead
    exact hl.liveAfter_of_leads hE hF hlead ((hl.liveBefore_iff_uses hF').mpr (.inl huse))
  | cons j through ih =>
    obtain ⟨hlead, hchain⟩ := isChain_cons_cons.mp hchain
    obtain ⟨F', hF'⟩ := hl.frame_of_leads hF hlead
    obtain ⟨hj, hrest⟩ := forall_mem_cons.mp hkeep
    refine hl.liveAfter_of_leads hE hF hlead ((hl.liveBefore_iff_uses hF').mpr (.inr ⟨hj, ?_⟩))
    exact ih hF' hchain hrest

end

/-! ## Nothing else is found -/

/-- A table whose positions are all read on paths. -/
def Founded (l : Liveness) (handlers : List Handler) (E : List BitSet) : Prop :=
  ∀ {b : Nat} {B : Block} {q : UInt32}, l.analysis.graph.blocks[b]? = some B →
    (needAt E b).contains q → l.ReadBefore handlers B.start q

section

variable (hl : l.Fits ctx handlers splits entry) (hE : l.Founded handlers E) {B : Block}

include hl hE

/-- What the successors of a block need is read on a path from its end. -/
theorem Fits.readAfter_of_liveOut
    (hB : l.analysis.graph.blocks[l.analysis.graph.blockNumber i]? = some B) (hi : B.last = i)
    (hF : l.analysis.frameAt i = some F) (hq : (liveOut E B).contains q) :
    l.ReadAfter handlers i q := by
  subst hi
  obtain ⟨instr, _, hi, _⟩ := hl.typing.step hF
  obtain ⟨c, hc, hq⟩ := contains_entriesOf.mp hq
  rw [hl.divides.succs hB hi, mem_eraseDups, mem_map] at hc
  obtain ⟨j, hj, rfl⟩ := hc
  obtain ⟨C, hC, rfl⟩ := hl.divides.isStart_of_last hB hi hj
  exact readAfter_iff.mpr ⟨C.start, .next hi hj, hE hC hq⟩

/-- What the handlers of a block need is read on a path from each of its instructions. -/
theorem Fits.readAfter_of_liveCaught
    (hB : l.analysis.graph.blocks[l.analysis.graph.blockNumber i]? = some B) (h1 : B.start ≤ i)
    (h2 : i < B.stop) (hF : l.analysis.frameAt i = some F) (hq : (l.liveCaught E B).contains q) :
    l.ReadAfter handlers i q := by
  obtain ⟨hlt, hq⟩ := BitSet.contains_below.mp hq
  obtain ⟨c, hc, hq⟩ := contains_entriesOf.mp hq
  rw [hl.divides.excSuccs hB, mem_eraseDups, mem_map] at hc
  obtain ⟨G, hG, rfl⟩ := hc
  obtain ⟨hG, hcov⟩ := mem_filter.mp hG
  obtain ⟨h, hh, _, hentry, hcovers⟩ := hl.divides.mem_guards hG
  rw [hcovers, ← hl.divides.covers_start hh hB h1 h2] at hcov
  have hlocal : l.isLocal q := by
    have hnarrow := hl.narrow hF
    have hsize : l.locals < 2 ^ 32 := by omega
    rw [UInt32.lt_iff_toNat_lt, UInt32.toNat_ofNat_of_lt' hsize] at hlt
    exact decide_eq_true hlt
  obtain ⟨C, hC, hstart⟩ := hl.divides.target_start h hh
  rw [hentry] at hq
  exact readAfter_iff.mpr ⟨h.target.toNat, .caught hh hcov hlocal, hstart ▸ hE hC hq⟩

/-- What is needed within a block is read on a path, if that is so for what the table says. -/
theorem Fits.readBefore_of_liveBefore
    (hB : l.analysis.graph.blocks[l.analysis.graph.blockNumber i]? = some B) (h1 : B.start ≤ i)
    (h2 : i < B.stop) (hF : l.analysis.frameAt i = some F) :
    (l.LiveAfter E i q → l.ReadAfter handlers i q) ∧
      (l.LiveBefore E i q → l.ReadBefore handlers i q) := by
  suffices hafter : ∀ q, l.LiveAfter E i q → l.ReadAfter handlers i q by
    refine ⟨hafter q, fun h => ?_⟩
    exact ((hl.liveBefore_iff_uses hF).mp h).imp_right fun hq => ⟨hq.1, hafter q hq.2⟩
  -- The induction goes from the end of the block to its start.
  obtain ⟨n, hn⟩ : ∃ n, B.stop = i + 1 + n := ⟨B.stop - (i + 1), by omega⟩
  induction n generalizing i F with
  | zero =>
    intro q hq
    rcases BitSet.contains_union.mp ((liveAfter_last hB hn).mp hq) with hq | hq
    · exact hl.readAfter_of_liveOut hE hB (by unfold Block.last; omega) hF hq
    · exact hl.readAfter_of_liveCaught hE hB h1 h2 hF hq
  | succ n ih =>
    have hnumber := hl.divides.number hB (show B.start ≤ i + 1 by omega) (by omega)
    have hnext : ∀ {instr}, l.body[i]? = some instr → i + 1 ∈ Graph.nexts instr i := by
      intro instr hi
      rw [hl.divides.inner hB h1 (by omega) hi]
      exact mem_cons_self
    obtain ⟨instr, _, hi, _, hflow, _⟩ := hl.typing.step hF
    obtain ⟨F', hF', _⟩ := hflow (i + 1) (hnext hi)
    rintro q ⟨B', live, hB', hwalk, hq⟩
    rw [hB] at hB'
    cases hB'
    rcases BitSet.contains_union.mp hq with hq | hq
    · refine readAfter_iff.mpr ⟨i + 1, .next hi (hnext hi), ?_⟩
      have hbefore : l.LiveBefore E (i + 1) q := ⟨B, live, by rw [hnumber]; exact hB, hwalk, hq⟩
      refine ((hl.liveBefore_iff_uses hF').mp hbefore).imp_right fun h => ⟨h.1, ?_⟩
      exact ih (by rw [hnumber]; exact hB) (by omega) (by omega) hF' (by omega) q h.2
    · exact hl.readAfter_of_liveCaught hE hB h1 h2 hF hq

/-- A look at a block adds only positions that are read on paths. -/
theorem Fits.founded_learn {live : BitSet} (hB : l.analysis.graph.blocks[B.id]? = some B)
    (hlen : B.id < E.length) (hF : l.analysis.entryOf B.id = some F)
    (hlive : l.liveIn E B = .ok live) : l.Founded handlers (learn E B.id live) := by
  intro b C q hC hq
  rcases (contains_needAt_learn hlen).mp hq with hold | ⟨rfl, hnew⟩
  · exact hE hC hold
  · rw [hB] at hC
    cases hC
    have hlt := (hl.divides.within hB).2.1
    have hnumber := hl.divides.number hB (Nat.le_refl _) hlt
    have hB' : l.analysis.graph.blocks[l.analysis.graph.blockNumber B.start]? = some B := by
      rw [hnumber]
      exact hB
    exact (hl.readBefore_of_liveBefore hE hB' (Nat.le_refl _) hlt (hl.starts hB hF).1).2
      ⟨B, live, hB', hlive, hnew⟩

end

/-- **Nothing else is found:** every position of the final table is read on a path. -/
theorem Fits.founded_entries (hl : l.Fits ctx handlers splits entry) (h : l.entries = .ok E) :
    l.Founded handlers E := by
  refine (settle_induction
    (fun E => E.length = l.analysis.graph.blocks.length ∧ l.Founded handlers E) ?_ ⟨?_, ?_⟩ h).2
  · rintro B hB E F live ⟨hlen, hE⟩ hF hlive
    have hB := hl.block_id hB
    have hlt := lt_of_getElem? hB
    exact ⟨length_learn.trans hlen, hl.founded_learn hE hB (by omega) hF hlive⟩
  · exact length_map _
  · intro b B q _ hq
    rw [needAt_unknown, BitSet.contains_empty] at hq
    cases hq

/-- **Liveness is reading on a path.** Whatever instructions a body is split after, each site that can
be reached and ends its block gets exactly the positions that some path from its exit uses before
killing them. -/
theorem forSites_iff_readAfter (z : Analyzer) (f : Func) (is : List Instr) (g : Graph)
    (an : Analysis) (splits : List Int) (sites : List Nat)
    (hg : Graph.build f.name is f.handlers splits = .ok g) (hz : z.analyze f is g = .ok an)
    (hn : ∀ i F, an.frameAt i = some F → f.maxLocals.toNat + F.stack.length < 2 ^ 32)
    (hs : ∀ s ∈ sites, s < is.length) :
    let l : Liveness := ⟨z.unit, f.maxLocals.toNat, is, an⟩
    ∃ found, l.forSites sites = .ok found ∧
      found.map Prod.fst = sites.filter (fun s => (an.frameAt s).isSome) ∧
      ∀ s set, (s, set) ∈ found → (∃ B ∈ g.blocks, B.last = s) →
        ∀ q, set.contains q ↔ l.ReadAfter f.handlers s q := by
  intro l
  have hd := Graph.divides_of_build hg
  have hl : l.Fits (z.context f) f.handlers splits (Analyzer.entryFrame f) :=
    fits_of_analyze hd hz hn
  have hgraph : an.graph = g := by
    obtain ⟨_, _, _, _, _, _, rfl⟩ := Analyzer.analyze_eq_ok.mp hz
    rfl
  obtain ⟨E, found, hsolves, hE, hfound, hsets, -⟩ := hl.forSites_found hs
  refine ⟨found, hfound, forSites_reached hfound, fun s set hset hlast q => ?_⟩
  obtain ⟨hmem, ⟨F, hF⟩, B, hB, rfl⟩ := hsets s set hset
  obtain ⟨C, hC, rfl⟩ := hlast
  have hC : an.graph.blocks[C.id]? = some C := hl.block_id (hgraph ▸ hC)
  have hlt := (hl.divides.within hC).2.1
  have hstop : C.stop = C.last + 1 := by
    unfold Block.last
    omega
  have hnumber : an.graph.blockNumber C.last = C.id := hl.divides.number hC (by omega) (by omega)
  obtain rfl : C = B := by
    rw [hnumber] at hB
    exact Option.some.inj (hC.symm.trans hB)
  rw [← liveAfter_last hB hstop]
  constructor
  · exact (hl.readBefore_of_liveBefore (hl.founded_entries hE) hB (by omega) (by omega) hF).1
  · exact hl.liveAfter_of_readAfter hsolves hF

/-- After the call of `pollFunc`, the handler leads to a use of the first local. The second one is set
anew on every path. -/
theorem forSites_iff_readAfter_poll :
    let l : Liveness := ⟨pollAnalyzer.unit, 2, pollBody, pollAnalysis⟩
    Graph.build pollFunc.name pollBody pollFunc.handlers [4] = .ok pollAnalysis.graph ∧
      pollAnalyzer.analyze pollFunc pollBody pollAnalysis.graph = .ok pollAnalysis ∧
      l.ReadAfter pollFunc.handlers 4 0 ∧ ¬l.ReadAfter pollFunc.handlers 4 1 := by
  have hbuild : Graph.build pollFunc.name pollBody pollFunc.handlers [4] =
      .ok pollAnalysis.graph := rfl
  have hanalyze : pollAnalyzer.analyze pollFunc pollBody pollAnalysis.graph =
      .ok pollAnalysis := by
    decide +kernel
  have hnarrow : ∀ o ∈ pollAnalysis.frames, ∀ F ∈ o,
      pollFunc.maxLocals.toNat + F.stack.length < 2 ^ 32 := by
    decide
  obtain ⟨found, hfound, -, hread⟩ := forSites_iff_readAfter pollAnalyzer pollFunc pollBody _
    pollAnalysis [4] [4] hbuild hanalyze
    (fun i F hF => hnarrow (some F) (List.mem_of_getElem? (Option.join_eq_some_iff.mp hF)) F rfl)
    (by decide)
  have hlive : forSites ⟨pollAnalyzer.unit, 2, pollBody, pollAnalysis⟩ [4] =
      .ok [(4, BitSet.insert ∅ 0)] := by
    decide +kernel
  obtain rfl : found = [(4, BitSet.insert ∅ 0)] := Except.ok.inj (hfound.symm.trans hlive)
  have hends : ∃ B ∈ pollAnalysis.graph.blocks, B.last = 4 := by decide
  have hset := hread 4 _ List.mem_cons_self hends
  exact ⟨hbuild, hanalyze, (hset 0).mp (by decide), fun h => absurd ((hset 1).mpr h) (by decide)⟩

end Liveness

end Resumable
