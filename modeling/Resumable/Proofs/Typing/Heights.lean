import Resumable.Proofs.CodeUnit.Body
import Resumable.Proofs.CodeUnit.StackBound
import Resumable.Proofs.Instr.Codec
import Resumable.Proofs.Typing.Invariant

/-!
# Frames and heights

The height of the stack is found twice: the analysis of a body gives a frame to every instruction
that it reaches, and the search for the highest stack follows heights alone. The frames of an analysis
have heights that are closed, so the search succeeds and finds none but those. It finds all of them:
its heights are closed too, and an analysis has frames only where the edges of the graph lead.
-/

namespace Resumable

open List

variable {I : Text → Text → Prop} {u : CodeUnit} {is : List Instr} {handlers : List Handler}
  {splits : List Int} {g : Graph} {η : Nat → Option Nat}

theorem Frame.Under.height {F G : Frame} (h : F.Under I G) : G.stack.length = F.stack.length :=
  h.stack.length_eq.symm

/-! ## Heights of a typing -/

/-- **The heights of a typing are closed,** if every handler covers an instruction that has a
frame. -/
theorem Typing.heightsClosed {ctx : TypingContext} {entry : Frame} {φ : Nat → Option Frame}
    (ht : Typing I ctx is handlers entry φ) (hentry : entry.stack = [])
    (hcover : ∀ h ∈ handlers, ∃ i F, h.covers i ∧ φ i = some F) :
    HeightsClosed ctx.unit is handlers fun i => (φ i).map (·.stack.length) := by
  have hadmits {j : Nat} {F : Frame} (h : Admits I φ j F) :
      (φ j).map (·.stack.length) = some F.stack.length := by
    obtain ⟨G, hG, hle⟩ := h
    rw [hG, Option.map_some, hle.height]
  constructor
  case entry => rw [hadmits ht.entry, hentry, length_nil]
  case caught =>
    intro h hh
    obtain ⟨i, F, hcov, hF⟩ := hcover h hh
    obtain ⟨-, -, -, -, -, hcaught⟩ := ht.step hF
    exact hadmits (hcaught h hh hcov)
  case next =>
    intro i n hn
    obtain ⟨F, hF, rfl⟩ := Option.map_eq_some_iff.mp hn
    obtain ⟨instr, F', hi, hyields, hnext, -⟩ := ht.step hF
    obtain ⟨pops, pushes, heffect, hle, hheight⟩ := hyields.height
    exact ⟨instr, pops, pushes, hi, heffect, hle, fun j hj => hheight ▸ hadmits (hnext j hj)⟩

/-! ## Heights where there are frames -/

/-- Heights that are closed and known at the start of a block are known throughout it. -/
theorem HeightsClosed.inside (hη : HeightsClosed u is handlers η)
    (hd : g.Divides is handlers splits) {b i : Nat} {B : Block} (hB : g.blocks[b]? = some B)
    (hstart : ∃ n, η B.start = some n) (h1 : B.start ≤ i) (h2 : i < B.stop) :
    ∃ n, η i = some n := by
  induction i, h1 using Nat.le_induction with
  | base => exact hstart
  | succ i hle ih =>
    obtain ⟨n, hn⟩ := ih (by omega)
    obtain ⟨instr, pops, pushes, hi, -, -, hnext⟩ := hη.next hn
    exact ⟨_, hnext (i + 1) (by rw [hd.inner hB hle h2 hi]; exact mem_singleton_self _)⟩

/-- **Heights that are closed are known wherever an analysis has a frame.** -/
theorem HeightsClosed.exists_height (hη : HeightsClosed u is handlers η)
    (hd : g.Divides is handlers splits) {a : Analyzer} {f : Func} {an : Analysis}
    (han : a.analyze f is g = .ok an) {i : Nat} {F : Frame} (hF : an.frameAt i = some F) :
    ∃ n, η i = some n := by
  -- Along the edges of the graph, the first instruction of every block is reached.
  have hedges {b : Nat} {K : Frame} : an.entryOf b = some K →
      ∀ B, g.blocks[b]? = some B → ∃ n, η B.start = some n := by
    refine Analyzer.entryOf_induction
      (fun b => ∀ B, g.blocks[b]? = some B → ∃ n, η B.start = some n) hd han ?_ ?_
    · intro B hB
      obtain ⟨B', hB', hzero⟩ := hd.first
      rw [hB] at hB'
      cases hB'
      exact ⟨0, hzero ▸ hη.entry⟩
    · intro b c B hb hB hc C hC
      have hat {j : Nat} (hj : g.IsStart j) (hcj : c = g.blockNumber j) : C.start = j := by
        obtain ⟨C', hC', hstart⟩ := hj
        rw [← hcj, hC] at hC'
        cases hC'
        exact hstart
      rcases hc with hc | hc
      · obtain ⟨-, hlt, hle⟩ := hd.within hB
        obtain ⟨n, hn⟩ := hη.inside hd hB (hb B hB) (Nat.le_sub_one_of_lt hlt) (Nat.sub_one_lt_of_lt hlt)
        obtain ⟨instr, pops, pushes, hi, -, -, hnext⟩ := hη.next hn
        rw [hd.succs hB hi, mem_eraseDups, mem_map] at hc
        obtain ⟨j, hj, hcj⟩ := hc
        rw [hat (hd.isStart_of_last hB hi hj) hcj.symm]
        exact ⟨_, hnext j hj⟩
      · rw [hd.excSuccs hB, mem_eraseDups, mem_map] at hc
        obtain ⟨G, hG, rfl⟩ := hc
        obtain ⟨h, hh, -, hentry, -⟩ := hd.mem_guards (mem_filter.mp hG).1
        rw [hat (hd.target_start h hh) hentry]
        exact ⟨1, hη.caught h hh⟩
  obtain ⟨B, K, -, -, hB, h1, h2, hK, -, -⟩ := ((Analyzer.frameAt_iff hd han).mp hF).within hd
  exact hη.inside hd hB (hedges hK B hB) h1 h2

/-! ## The bound -/

/-- What an instruction leaves is not above a bound of the heights. -/
theorem HeightsFit.leaves_le {bound : Nat} (hη : HeightsFit u is handlers η bound) {i n m : Nat}
    (hn : η i = some n) (hm : u.Leaves is i n m) : m ≤ bound := by
  obtain ⟨instr, pops, pushes, hi, heffect, hle, rfl⟩ := hm
  obtain ⟨instr', pops', pushes', hi', heffect', -, hnext⟩ := hη.next hn
  obtain rfl : instr = instr' := Option.some.inj (hi.symm.trans hi')
  obtain ⟨rfl, rfl⟩ := Prod.mk.inj (Option.some.inj (heffect.symm.trans heffect'))
  cases hfalls : instr.fallsThrough with
  | true => exact hη.below (hnext (i + 1) (by simp [Graph.nexts, hfalls]))
  | false =>
    have := (Instr.stackEffect_le heffect).2 hfalls
    have := hη.below hn
    omega

/-- **The bound that is found is the greatest height** that an instruction leaves, or 1 for the
error that a handler is given. -/
theorem Heights.Traced.isGreatest {hs : Heights}
    (ht : hs.Traced u is η (if handlers.isEmpty then 0 else 1))
    (hη : HeightsFit u is handlers η hs.bound) :
    IsGreatest {m | (∃ i n, η i = some n ∧ u.Leaves is i n m) ∨ handlers ≠ [] ∧ m = 1}
      hs.bound := by
  constructor
  · rcases ht.bound with hfirst | hleaves
    · cases handlers with
      | nil =>
        -- No stack is higher than the empty one, and the first instruction leaves one.
        obtain ⟨instr, pops, pushes, hi, heffect, hle, -⟩ := hη.next hη.entry
        have hm : u.Leaves is 0 0 (0 - pops + pushes) :=
          ⟨instr, pops, pushes, hi, heffect, hle, rfl⟩
        have hbound : hs.bound = 0 := hfirst
        have hleft := hη.leaves_le hη.entry hm
        rw [show 0 - pops + pushes = hs.bound by omega] at hm
        exact Or.inl ⟨0, 0, hη.entry, hm⟩
      | cons h hs => exact Or.inr ⟨cons_ne_nil _ _, hfirst⟩
    · exact Or.inl hleaves
  · rintro m (⟨i, n, hn, hm⟩ | ⟨hne, rfl⟩)
    · exact hη.leaves_le hn hm
    · obtain ⟨h, hh⟩ := exists_mem_of_ne_nil _ hne
      exact hη.below (hη.caught h hh)

/-- **The analysis and the search for the highest stack agree** on bodies whose handlers cover an
instruction with a frame each. The search finds the heights of the frames, and nothing where there is
no frame. Its bound is the greatest height that an instruction with a frame leaves, and it is the
number that is given back unless the code is too long for a unit. -/
theorem Analyzer.heights_eq_frames {a : Analyzer} {f : Func} {an : Analysis}
    (hbody : a.unit.bodyOf f = .ok is) (hg : Graph.build f.name is f.handlers splits = .ok g)
    (han : a.analyze f is g = .ok an)
    (hcover : ∀ h ∈ f.handlers, ∃ i F, h.covers i ∧ an.frameAt i = some F) :
    ∃ hs, a.unit.heights is f.handlers = .ok hs ∧
      (∀ i, hs.heightAt i = (an.frameAt i).map (·.stack.length)) ∧
      IsGreatest {m | (∃ i F, an.frameAt i = some F ∧ a.unit.Leaves is i F.stack.length m) ∨
        f.handlers ≠ [] ∧ m = 1} hs.bound ∧
      a.unit.stackBound is f.handlers = .ok (UInt32.ofNat hs.bound) ∧
      (f.code.length < 2 ^ 32 → (UInt32.ofNat hs.bound).toNat = hs.bound) := by
  have hd := Graph.divides_of_build hg
  have ht := typing_of_analyze a.classes.bounds_true hd han
  have hclosed : HeightsClosed a.unit is f.handlers _ := ht.heightsClosed rfl hcover
  obtain ⟨hs, hheights, htraced⟩ := CodeUnit.heights_of_closed hclosed
  obtain ⟨hfit, hle⟩ := CodeUnit.heightsFit_of_heights hheights
  have hagree (i : Nat) : hs.heightAt i = (an.frameAt i).map (·.stack.length) := by
    cases hF : an.frameAt i with
    | none =>
      cases hn : hs.heightAt i with
      | none => rfl
      | some n =>
        have := htraced.known hn
        rw [hF] at this
        cases this
    | some F =>
      obtain ⟨n, hn⟩ := hfit.toHeightsClosed.exists_height hd han hF
      rw [hn, ← htraced.known hn, hF]
  refine ⟨hs, hheights, hagree, ?_, bind_eq_ok.mpr ⟨hs, hheights, rfl⟩, fun hcode => ?_⟩
  · have hgreatest := htraced.isGreatest ((funext hagree : hs.heightAt = _) ▸ hfit)
    simpa only [Option.map_eq_some_iff, exists_exists_and_eq_and] using hgreatest
  · have := Instr.length_le_of_decodeAll (CodeUnit.bodyOf_eq_ok.mp hbody).1
    exact UInt32.toNat_ofNat_of_lt' (Nat.lt_of_le_of_lt (Nat.le_trans hle this) hcode)

/-- Two arguments are pushed for a call whose failure is handled. One instruction is never reached. -/
theorem Analyzer.heights_eq_frames_call :
    let f : Func := { name := "f", params := [.int], result := .int, maxStack := 2, maxLocals := 1
                      code := [0x10, 0x00, 0x10, 0x00, 0x40, 0x00, 0x51, 0x19, 0x18, 0x10, 0x00, 0x51]
                      handlers := [⟨0, 3, 5, "", 0, 0⟩] }
    let is : List Instr := [.load 0, .load 0, .invoke 0, .retval, .dup, .pop, .load 0, .retval]
    let a : Analyzer := { unit := { symbols := [⟨"X", "use", [.int, .int], .int⟩] }
                          classes := ⟨builtinSuper⟩ }
    ∃ g an hs, a.unit.bodyOf f = .ok is ∧ Graph.build f.name is f.handlers [] = .ok g ∧
      a.analyze f is g = .ok an ∧ a.unit.heights is f.handlers = .ok hs ∧
      (List.range 8).map hs.heightAt =
        [some 0, some 1, some 2, some 1, none, some 1, some 0, some 1] := by
  intro f is a
  have hbody : a.unit.bodyOf f = .ok is := by decide +kernel
  have hg : Graph.build f.name is f.handlers [] = .ok (Graph.assemble is f.handlers []) := rfl
  have hanalyze : (a.analyze f is (Graph.assemble is f.handlers [])).toOption.map (fun an =>
      (List.range 8).map fun i => (an.frameAt i).map (·.stack.length)) =
        some [some 0, some 1, some 2, some 1, none, some 1, some 0, some 1] := by decide +kernel
  obtain ⟨an, han, hframes⟩ := Option.map_eq_some_iff.mp hanalyze
  have han := toOption_eq_some.mp han
  have hcover : ∀ h ∈ f.handlers, ∃ i F, h.covers i ∧ an.frameAt i = some F := by
    intro h hh
    obtain rfl := List.mem_singleton.mp hh
    obtain ⟨F, hF, -⟩ := Option.map_eq_some_iff.mp (List.cons.inj hframes).1
    exact ⟨0, F, rfl, hF⟩
  obtain ⟨hs, hheights, hagree, -⟩ := heights_eq_frames hbody hg han hcover
  exact ⟨_, an, hs, hbody, hg, han, hheights, (List.map_congr_left fun i _ => hagree i).trans hframes⟩

end Resumable
