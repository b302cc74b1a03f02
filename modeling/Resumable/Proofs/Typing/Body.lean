import Resumable.Proofs.Typing.Frames

/-!
# Typings of a body

A typing gives frames to single instructions, without any blocks. It is what an execution needs: the
frame before an instruction, the frame after it below that of wherever control goes, and the locals
before a covered instruction below those of its handlers. `Typing.of_consistent` reads a typing off
a consistent assignment to blocks and `Typing.consistent` goes the other way, whatever the graph. So
the frames that an analysis finds do not depend on how the body was cut.
-/

namespace Resumable

open List Subject

/-- The frame that a handler for a class sees. -/
def Frame.caught (cls : Text) (f : Frame) : Frame :=
  { f with stack := [.ref (if cls.isEmpty then ClassName.error else cls)] }

/-- Frames before instructions that fit together, for an order `I` of classes. -/
structure Typing (I : Text → Text → Prop) (ctx : TypingContext) (is : List Instr)
    (handlers : List Handler) (entry : Frame) (φ : Nat → Option Frame) : Prop where
  entry : Admits I φ 0 entry
  step : ∀ {i : Nat} {F : Frame}, φ i = some F → ∃ instr F', is[i]? = some instr ∧
    instr.Yields ctx F F' ∧ (∀ j ∈ Graph.nexts instr i, Admits I φ j F') ∧
    ∀ h ∈ handlers, h.covers i → Admits I φ h.target.toNat (F.caught h.cls)

variable {s : Subject} {I : Text → Text → Prop} {handlers : List Handler} {splits : List Int}
  {entry : Frame} {φ σ : Nat → Option Frame}

section

variable {ctx : TypingContext} {is : List Instr} {i : Nat} {F : Frame}
  (ht : Typing I ctx is handlers entry φ) (hF : φ i = some F)

include ht hF

/-- How an instruction changes its frame, and where the new one goes. -/
theorem Typing.step_at {instr : Instr} (hi : is[i]? = some instr) :
    ∃ F', instr.Yields ctx F F' ∧ ∀ j ∈ Graph.nexts instr i, Admits I φ j F' := by
  obtain ⟨instr', F', hi', hy, hnext, -⟩ := ht.step hF
  cases hi.symm.trans hi'
  exact ⟨F', hy, hnext⟩

theorem Typing.caught {h : Handler} (hh : h ∈ handlers) (hcov : h.covers i) :
    Admits I φ h.target.toNat (F.caught h.cls) := by
  obtain ⟨_, _, _, _, _, hcaught⟩ := ht.step hF
  exact hcaught h hh hcov

end

theorem Subject.caughtFrame_eq (G : Guard) (F : Frame) : caughtFrame G F = F.caught G.cls := rfl

/-! ## From blocks to instructions -/

/-- What a consistent assignment admits at a block, its walks admit at the start of the block. -/
theorem Subject.Consistent.admits_start (hd : s.graph.Divides s.body handlers splits)
    (hc : s.Consistent I entry σ) (hφ : ∀ i F, φ i = some F ↔ Analyzer.Traces s σ i F) {j : Nat}
    {F : Frame} (hj : s.graph.IsStart j) (hF : Admits I σ (s.graph.blockNumber j) F) :
    Admits I φ j F := by
  obtain ⟨B, hB, rfl⟩ := hj
  obtain ⟨k, hk, hle⟩ := hF
  obtain ⟨B', hB', seen, k', hw, _⟩ := hc.block hk
  rw [hB] at hB'
  cases hB'
  have hlt := (hd.within hB).2.1
  refine ⟨k, ?_, hle⟩
  rw [hφ]
  exact ⟨_, B, k, seen, k', hB, hk, hw, hw.head (by omega)⟩

/-- The frames that walks from consistent entry frames meet are a typing. -/
theorem Typing.of_consistent (hd : s.graph.Divides s.body handlers splits)
    (hc : s.Consistent I entry σ) (hφ : ∀ i F, φ i = some F ↔ Analyzer.Traces s σ i F) :
    Typing I s.ctx s.body handlers entry φ where
  entry := by
    obtain ⟨B, hB, h0⟩ := hd.first
    have hlt := (hd.within hB).2.1
    have hn := hd.number hB (Nat.le_refl _) hlt
    refine hc.admits_start hd hφ ⟨B, ?_, h0⟩ ?_
    · rw [← h0, hn]
      exact hB
    · rw [← h0, hn]
      exact hc.entry
  step := by
    intro i F hF
    obtain ⟨b, B, k, seen, k', hB, hk, hw, hm⟩ := (hφ i F).mp hF
    have hlt := (hd.within hB).2.1
    obtain ⟨instr, F', hi, hy, h1, h2, hnext⟩ := hw.next hm
    obtain ⟨B', hB', seen', k'', hw', hcaught, hsuccs⟩ := hc.block hk
    rw [hB] at hB'
    cases hB'
    obtain ⟨rfl, rfl⟩ := hw.unique hw'
    refine ⟨instr, F', hi, hy, ?_, ?_⟩
    · intro j hj
      rcases hnext with ⟨h3, hm'⟩ | ⟨h3, hlast'⟩
      · -- Within the block the next frame is the one that the walk meets.
        rw [hd.inner hB h1 (by omega) hi] at hj
        obtain rfl := mem_singleton.mp hj
        exact ⟨F', (hφ _ _).mpr ⟨b, B, k, seen, k', hB, hk, hw, hm'⟩, .refl I F'⟩
      · have hlast : B.last = i := by
          unfold Block.last
          omega
        subst hlast hlast'
        refine hc.admits_start hd hφ (hd.isStart_of_last hB hi hj) (hsuccs _ ?_)
        rw [hd.succs hB hi, mem_eraseDups]
        exact mem_map.mpr ⟨j, hj, rfl⟩
    · intro h hh hcov
      obtain ⟨G, hG, hcls, hentry, hcovers⟩ := hd.exists_guard hh
      have := hcaught _ hm G hG ((hcovers i).trans hcov)
      rw [caughtFrame_eq, hcls, hentry] at this
      exact hc.admits_start hd hφ (hd.target_start h hh) this

/-! ## From instructions to blocks -/

/-- The part of a typing that belongs to the starts of blocks. -/
def Graph.atStarts (g : Graph) (φ : Nat → Option Frame) (b : Nat) : Option Frame :=
  (g.blocks[b]?).bind fun B => φ B.start

theorem Graph.IsStart.atStarts {g : Graph} {j : Nat} (hj : g.IsStart j) :
    g.atStarts φ (g.blockNumber j) = φ j := by
  obtain ⟨B, hB, rfl⟩ := hj
  simp [Graph.atStarts, hB]

namespace Typing

variable (hg : s.ctx.classes.Grounded) (hd : s.graph.Divides s.body handlers splits)
  (ht : Typing s.ctx.classes.Inherits s.ctx s.body handlers entry φ)

include hg hd ht in
/-- **A walk through the rest of a block stays below a typing.** The induction is on the number of
instructions that are left; the walk may start with a smaller frame than the typing has. -/
theorem walks {b n a : Nat} {B : Block} {F : Frame} (hB : s.graph.blocks[b]? = some B)
    (ha : B.start ≤ a) (hn : a + (n + 1) = B.stop)
    (hF : Admits s.ctx.classes.Inherits φ a F) :
    ∃ seen k, s.Walks (range' a (n + 1)) F seen k ∧
      (∀ x ∈ seen, Admits s.ctx.classes.Inherits φ x.1 x.2) ∧
      ∃ instr, s.body[B.last]? = some instr ∧
        ∀ j ∈ Graph.nexts instr B.last, Admits s.ctx.classes.Inherits φ j k := by
  induction n generalizing a F with
  | zero =>
    obtain ⟨G, hG, hFG⟩ := hF
    obtain ⟨instr, G', hi, hy, hnext, _⟩ := ht.step hG
    obtain ⟨F', hy', hle⟩ := hy.mono hg hFG
    have hlast : B.last = a := by
      unfold Block.last
      omega
    refine ⟨[(a, F)], F', .cons hi hy' .nil, ?_, instr, by rw [hlast]; exact hi, ?_⟩
    · intro x hx
      obtain rfl := mem_singleton.mp hx
      exact ⟨G, hG, hFG⟩
    · intro j hj
      rw [hlast] at hj
      exact (hnext j hj).under hg.bounds hle
  | succ n ih =>
    obtain ⟨G, hG, hFG⟩ := hF
    obtain ⟨instr, G', hi, hy, hnext, _⟩ := ht.step hG
    obtain ⟨F', hy', hle⟩ := hy.mono hg hFG
    have hin : Graph.nexts instr a = [a + 1] := hd.inner hB ha (by omega) hi
    have hF' : Admits s.ctx.classes.Inherits φ (a + 1) F' := by
      refine (hnext (a + 1) ?_).under hg.bounds hle
      rw [hin]
      exact mem_singleton.mpr rfl
    obtain ⟨seen, k, hw, hseen, hexit⟩ := ih (by omega) (by omega) hF'
    refine ⟨(a, F) :: seen, k, ?_, ?_, hexit⟩
    · rw [range'_succ]
      exact .cons hi hy' hw
    · intro x hx
      rcases mem_cons.mp hx with rfl | hx
      · exact ⟨G, hG, hFG⟩
      · exact hseen x hx

include hg hd ht in
/-- A walk through a block from a frame that a typing admits. -/
theorem walks_block {b : Nat} {B : Block} {F : Frame} (hB : s.graph.blocks[b]? = some B)
    (hF : Admits s.ctx.classes.Inherits φ B.start F) :
    ∃ seen k, s.Walks (members B) F seen k ∧
      (∀ x ∈ seen, Admits s.ctx.classes.Inherits φ x.1 x.2) ∧
      ∃ instr, s.body[B.last]? = some instr ∧
        ∀ j ∈ Graph.nexts instr B.last, Admits s.ctx.classes.Inherits φ j k := by
  have hlt := (hd.within hB).2.1
  obtain ⟨n, hn⟩ : ∃ n, B.stop - B.start = n + 1 := ⟨B.stop - B.start - 1, by omega⟩
  unfold members
  rw [hn]
  exact walks hg hd ht hB (Nat.le_refl _) (by omega) hF

include hg hd ht in
/-- At the starts of blocks, a typing is a consistent assignment. -/
theorem consistent :
    s.Consistent s.ctx.classes.Inherits entry (s.graph.atStarts φ) where
  entry := by
    obtain ⟨B, hB, h0⟩ := hd.first
    obtain ⟨k, hk, hle⟩ := ht.entry
    exact ⟨k, by simp [Graph.atStarts, hB, h0, hk], hle⟩
  block := by
    intro b F hF
    obtain ⟨B, hB, hF⟩ := Option.bind_eq_some_iff.mp hF
    obtain ⟨seen, k, hw, hseen, instr, hi, hexit⟩ :=
      walks_block hg hd ht hB ⟨F, hF, .refl _ F⟩
    refine ⟨B, hB, seen, k, hw, ?_, ?_⟩
    · intro x hx G hG hcov
      obtain ⟨h, hh, hcls, hentry, hcovers⟩ := hd.mem_guards hG
      obtain ⟨K, hK, hle⟩ := hseen x hx
      obtain ⟨_, _, _, _, _, hcaught⟩ := ht.step hK
      rw [caughtFrame_eq, hcls, hentry]
      unfold Admits
      rw [(hd.target_start h hh).atStarts]
      exact (hcaught h hh ((hcovers _).symm.trans hcov)).under hg.bounds (hle.withStack _)
    · intro c hc
      rw [hd.succs hB hi, mem_eraseDups] at hc
      obtain ⟨j, hj, rfl⟩ := mem_map.mp hc
      unfold Admits
      rw [(hd.isStart_of_last hB hi hj).atStarts]
      exact hexit j hj

end Typing

namespace Analyzer

variable {a : Analyzer} {f : Func} {is : List Instr} {g : Graph} {an : Analysis}

/-- What the types of a function depend on. -/
def context (a : Analyzer) (f : Func) : TypingContext :=
  { unit := a.unit, classes := a.classes, function := f.name, result := f.result }

/-- The frames of an analysis are a typing. -/
theorem typing_of_analyze (hb : a.classes.Bounds I) (hd : g.Divides is handlers splits)
    (h : a.analyze f is g = .ok an) :
    Typing I (a.context f) is handlers (entryFrame f) an.frameAt :=
  Typing.of_consistent (s := a.subject f is g) hd (analyze_sound hb hd h)
    fun _ _ => frameAt_iff hd h

/-- An analysis succeeds on a body that has a typing. -/
theorem analyze_of_typing (hg : a.classes.Grounded) (hs : ∀ op, a.supports op = true)
    (hd : g.Divides is handlers splits)
    (ht : Typing a.classes.Inherits (a.context f) is handlers (entryFrame f) φ) :
    ∃ an, a.analyze f is g = .ok an :=
  analyze_complete hg hs hd (Typing.consistent (s := a.subject f is g) hg hd ht)

/-- The entry frames of an analysis are below those of any consistent assignment. -/
theorem analyze_least (hg : a.classes.Grounded) (hd : g.Divides is handlers splits)
    (h : a.analyze f is g = .ok an)
    (hc : (a.subject f is g).Consistent a.classes.Inherits (entryFrame f) σ) {b : Nat}
    {F : Frame} (hF : an.entryOf b = some F) : Admits a.classes.Inherits σ b F := by
  have hne := blocks_ne_nil hd
  obtain ⟨_, p, _, _, hp, _, rfl⟩ := analyze_eq_ok.mp h
  obtain ⟨k, hr, _⟩ := rounds_of_settle hp
  exact hr.stays_below hg hc (underway_initial hne) (below_initial hne hc) hF

/-- The frames of an analysis are below those of any typing, however the body was cut. -/
theorem frameAt_least (hg : a.classes.Grounded) (hd : g.Divides is handlers splits)
    (h : a.analyze f is g = .ok an)
    (ht : Typing a.classes.Inherits (a.context f) is handlers (entryFrame f) φ) {i : Nat}
    {F : Frame} (hF : an.frameAt i = some F) : Admits a.classes.Inherits φ i F := by
  obtain ⟨b, B, k, seen, k', hB, hk, hw, hm⟩ := (frameAt_iff hd h).mp hF
  have hc := Typing.consistent (s := a.subject f is g) hg hd ht
  have hk' : Admits a.classes.Inherits φ B.start k := by
    obtain ⟨K, hK, hle⟩ := analyze_least hg hd h hc hk
    refine ⟨K, ?_, hle⟩
    simpa [Graph.atStarts, hB] using hK
  obtain ⟨seen', k'', hw', hseen, _⟩ := Typing.walks_block (s := a.subject f is g) hg hd ht hB hk'
  obtain ⟨rfl, _⟩ := hw.unique hw'
  exact hseen _ hm

theorem graph_of_analyze (h : a.analyze f is g = .ok an) : an.graph = g := by
  obtain ⟨_, p, _, _, _, _, rfl⟩ := analyze_eq_ok.mp h
  rfl

/-- A block with an entry frame has it before its first instruction, and a frame before all
others. -/
theorem frames_of_entryOf (hd : g.Divides is handlers splits) (h : a.analyze f is g = .ok an)
    {b : Nat} {B : Block} {F : Frame} (hB : g.blocks[b]? = some B) (hF : an.entryOf b = some F) :
    an.frameAt B.start = some F ∧
      ∀ i, B.start ≤ i → i < B.stop → ∃ F', an.frameAt i = some F' := by
  obtain ⟨B', hB', seen, k, hw, _⟩ := (analyze_sound a.classes.bounds_true hd h).block hF
  rw [show (a.subject f is g).graph.blocks[b]? = some B from hB] at hB'
  cases hB'
  have hlt := (hd.within hB).2.1
  refine ⟨(frameAt_iff hd h).mpr ⟨b, B, F, seen, k, hB, hF, hw, hw.head (by omega)⟩, ?_⟩
  intro i h1 h2
  have hi : i ∈ seen.map Prod.fst := by
    rw [hw.map_fst]
    unfold members
    rw [mem_range'_1]
    omega
  obtain ⟨⟨j, F'⟩, hm, rfl⟩ := mem_map.mp hi
  exact ⟨F', (frameAt_iff hd h).mpr ⟨b, B, F, seen, k, hB, hF, hw, hm⟩⟩

theorem length_locals_of_frameAt (hd : g.Divides is handlers splits) (h : a.analyze f is g = .ok an)
    {i : Nat} {F : Frame} (hF : an.frameAt i = some F) : F.locals.length = f.maxLocals.toNat := by
  obtain ⟨b, B, k, seen, k', hB, hk, hw, hm⟩ := (frameAt_iff hd h).mp hF
  exact (hw.locals_length.2 _ hm).trans (entryOf_size hd h hk).1

theorem length_frames (h : a.analyze f is g = .ok an) : an.frames.length = is.length := by
  obtain ⟨_, p, _, _, hp, _, rfl⟩ := analyze_eq_ok.mp h
  simp

end Analyzer

end Resumable
