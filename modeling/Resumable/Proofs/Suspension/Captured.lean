import Resumable.CodeUnit.Reader
import Resumable.Proofs.Suspension.Plan
import Resumable.Proofs.Typing.Invariant

/-!
# What points capture

A point captures the live positions below the awaited future, in order, except those whose types are
unusable. A live local is never left out, because what is live can be read. A live stack slot is left
out only where a call or a record field has put a value of an unusable type there: nothing keeps such
a value from being passed on to another call, but there is no field for it in the record.
-/

namespace Resumable

open List

/-- What a point captures, where `set` is live after its call and `F` is the frame before it. -/
structure Point.Captures (p : Point) (l : Liveness) (set : BitSet) (F : Frame) : Prop where
  stack : p.stack = F.stack.tail.reverse
  /-- The captured positions are in order … -/
  ordered : p.live.Pairwise (· < ·)
  /-- … and have the types of the fields. -/
  fields : List.Forall₂ (fun v t => Plan.typeAt l.locals F v = some t) p.live p.fields
  /-- Every live position below the awaited future has a type, … -/
  typed : ∀ v, set.contains v → v < l.stackPos p.depth → ∃ t, Plan.typeAt l.locals F v = some t
  /-- … and it is captured if and only if the type is usable. -/
  mem_live : ∀ v, v ∈ p.live ↔ set.contains v ∧ v < l.stackPos p.depth ∧
    ∃ t, Plan.typeAt l.locals F v = some t ∧ t.Usable
  /-- No live local is left out. -/
  locals : ∀ v, set.contains v → v.toNat < l.locals → v ∈ p.live
  /-- Nothing is left out if all values that get onto the stack have usable types. -/
  complete : l.unit.UsableTypes → ∀ v, v ∈ p.live ↔ set.contains v ∧ v < l.stackPos p.depth

namespace Plan

variable {l : Liveness} {p : Point} {plan : Plan} {F : Frame}

theorem capturable_iff {t : Ty} : capturable t ↔ t.Usable := by
  cases t <;> simp [capturable, Ty.Usable]

theorem typeAt_of_local {v : UInt32} (h : v.toNat < l.locals) :
    typeAt l.locals F v = F.locals[v.toNat]? := if_pos h

/-- The type of a stack slot is one of the types on the stack. -/
theorem mem_stack_of_typeAt {v : UInt32} {t : Ty} (h : ¬ v.toNat < l.locals)
    (ht : typeAt l.locals F v = some t) : t ∈ F.stack := by
  unfold typeAt at ht
  rw [if_neg h] at ht
  exact mem_reverse.mp (mem_of_getElem? ht)

/-- What a point that fits captures, if live locals can be read. -/
theorem captures_of_fits {set : BitSet} (hp : p.Fits l (fun v => set.contains v) F)
    (hn : l.locals + F.stack.length < 2 ^ 32)
    (hread : ∀ v, set.contains v → v.toNat < l.locals → F.CanRead v)
    (hstack : l.unit.UsableTypes → F.UsableStack) : p.Captures l set F := by
  have hdepth : p.depth ≤ F.stack.length := by simp [Point.depth, hp.stack]
  have hbelow {v : UInt32} : v < l.stackPos p.depth ↔ v.toNat < l.locals + p.depth := by
    rw [UInt32.lt_iff_toNat_lt, Liveness.toNat_stackPos (by omega)]
  have hlocal (v : UInt32) (hlt : v.toNat < l.locals) (hv : set.contains v) :
      ∃ t, typeAt l.locals F v = some t ∧ t.Usable := by
    rw [typeAt_of_local hlt]
    exact hread v hv hlt
  have hmem (v : UInt32) : v ∈ p.live ↔ set.contains v ∧ v < l.stackPos p.depth ∧
      ∃ t, typeAt l.locals F v = some t ∧ t.Usable := by
    simp only [hp.mem_live, hbelow, capturable_iff]
  refine ⟨hp.stack, hp.ordered, hp.fields.imp fun _ _ h => h.1, ?_, hmem, ?_, ?_⟩
  · intro v hv hlt
    exact hp.typed hv (hbelow.mp hlt)
  · intro v hv hlt
    exact (hmem v).mpr ⟨hv, hbelow.mpr (by omega), hlocal v hlt hv⟩
  · intro hu v
    rw [hmem v]
    refine and_congr_right fun hv => and_iff_left_of_imp fun hlt => ?_
    by_cases hl : v.toNat < l.locals
    · exact hlocal v hl hv
    · obtain ⟨t, ht⟩ := hp.typed hv (hbelow.mp hlt)
      exact ⟨t, ht, hstack hu t (mem_stack_of_typeAt hl ht)⟩

theorem mem_sites {u : CodeUnit} {matcher : CallMatcher} {is : List Instr} {s : Nat}
    (h : s ∈ u.sites matcher is) : s < is.length :=
  mem_range.mp (mem_filter.mp h).1

/-- The points of a plan capture what is found to be live at its sites, one after the other. -/
theorem captures_of_make {a : Analyzer} {f : Func} {is : List Instr} {sites : List Nat}
    (h : make a f is sites = .ok plan) (hsites : ∀ s ∈ sites, s < is.length)
    (hn : ∀ i F, plan.analysis.frameAt i = some F → f.maxLocals.toNat + F.stack.length < 2 ^ 32) :
    ∃ found, Liveness.forSites ⟨a.unit, f.maxLocals.toNat, is, plan.analysis⟩ sites = .ok found ∧
      Forall₂ (fun q p => p.instr = q.1 ∧ ∃ F, plan.analysis.frameAt q.1 = some F ∧
        p.Captures ⟨a.unit, f.maxLocals.toNat, is, plan.analysis⟩ q.2 F) found plan.points := by
  obtain ⟨g, an, found, points, segments, hg, han, hfound, hpoints, _, rfl⟩ := make_eq_ok.mp h
  have hd := Graph.divides_of_build hg
  have hl := Liveness.fits_of_analyze hd han hn
  obtain ⟨E, found', _, hE, hfound', hsets, _⟩ := hl.forSites_table fun s hs =>
    ⟨hsites s hs, mem_map.mpr ⟨s, hs, rfl⟩⟩
  rw [hfound] at hfound'
  cases hfound'
  refine ⟨found, hfound, ?_⟩
  have hpoint : ∀ q ∈ found.zipIdx, ∀ p, (∃ F, an.frameAt q.1.1 = some F ∧
      point a.unit ⟨a.unit, f.maxLocals.toNat, is, an⟩ (q.2 + 1) q.1.1 F q.1.2 = .ok p) →
      p.instr = q.1.1 ∧ ∃ F, an.frameAt q.1.1 = some F ∧
        p.Captures ⟨a.unit, f.maxLocals.toNat, is, an⟩ q.1.2 F := by
    rintro ⟨⟨s, set⟩, k⟩ hq p ⟨F, hF, hp⟩
    have hmem : (s, set) ∈ found :=
      mem_of_getElem? (mk_mem_zipIdx_iff_getElem?.mp hq)
    obtain ⟨hs, _, hlive⟩ := hsets s set hmem
    obtain ⟨_, hinstr, hfits⟩ := fits_of_point hF (hn s F hF) (Liveness.inReach_forSites hfound hmem) hp
    refine ⟨hinstr, F, hF, captures_of_fits hfits (hn s F hF) ?_ fun hu =>
      Analyzer.usableStack_of_analyze hu hd han hF⟩
    -- A site is the last instruction of its block, and it is not a store.
    intro v hv hlt
    obtain ⟨B, hB, h1, h2⟩ := hl.divides.exists_block (hsites s hs)
    obtain ⟨n, hcall, _⟩ := hfits.call
    exact hl.canRead_of_liveAfter hE hB (hl.divides.split (mem_map.mpr ⟨s, hs, rfl⟩) hB h1 h2)
      h1 hF (hinstr ▸ hcall) (by simp) ((hlive v).mp hv) hlt
  have hall := (forall₂_and_left _ _).mpr ⟨fun q (hq : q ∈ found.zipIdx) => hq, hpoints⟩
  rw [← zipIdx_map_fst 0 found, forall₂_map_left_iff]
  exact hall.imp fun q p hqp => hpoint q hqp.1 p hqp.2

/-- **What the points of a plan capture.** The points belong to the suspending calls for which live
positions are found, and capture them as `Point.Captures` says. -/
theorem ofFunction_captures {u : CodeUnit} {loader : Resolver} {matcher : CallMatcher} {index : Int}
    {f : Func} (h : ofFunction u loader matcher index = .ok (some plan))
    (hf : u.function? index = some f)
    (hn : ∀ i F, plan.analysis.frameAt i = some F → f.maxLocals.toNat + F.stack.length < 2 ^ 32) :
    ∃ is found, u.bodyOf f = .ok is ∧
      Liveness.forSites ⟨u, f.maxLocals.toNat, is, plan.analysis⟩ (u.sites matcher is) = .ok found ∧
      List.Forall₂ (fun q p => p.instr = q.1 ∧ ∃ F, plan.analysis.frameAt q.1 = some F ∧
        p.Captures ⟨u, f.maxLocals.toNat, is, plan.analysis⟩ q.2 F) found plan.points := by
  unfold ofFunction at h
  obtain ⟨f', hf', h⟩ := bind_eq_ok.mp h
  obtain ⟨is, his, h⟩ := bind_eq_ok.mp h
  rw [Attempt.ofOption_eq_ok, hf] at hf'
  cases hf'
  dsimp only at h
  split at h
  next => cases h
  next first rest hsites =>
    split at h
    next => exact absurd h Attempt.fail_ne_ok
    next =>
      obtain ⟨plan', hmake, h⟩ := bind_eq_ok.mp h
      cases h
      rw [← hsites] at hmake
      obtain ⟨found, hfound⟩ := captures_of_make hmake (fun s hs => mem_sites hs) hn
      exact ⟨is, found, mapError_eq_ok.mp his, hfound⟩

/-- Keeps a value of an unusable type on the stack while it waits for its parameter, and then passes
the value on. -/
def relayFunc : Func where
  name := "f"
  params := [.ref "Future"]
  result := .ref "Future"
  code := [0x40, 0x00, 0x10, 0x00, 0x40, 0x01, 0x18, 0x40, 0x02, 0x10, 0x00, 0x51]
  maxStack := 2
  maxLocals := 1

/-- The body of `relayFunc`. -/
def relayBody : List Instr :=
  [.invoke 0, .load 0, .invoke 1, .pop, .invoke 2, .load 0, .retval]

def relayUnit : CodeUnit where
  strings := ["X", "make", "async/Await", "await", "Future", "Object", "use", "f"]
  symbols := [
    { owner := "X", name := "make", params := [], result := .top },
    { owner := "async/Await", name := "await", params := [.ref "Future"], result := .ref "Object" },
    { owner := "X", name := "use", params := [.top], result := .void }]
  functions := [relayFunc]

/-- The plan of `relayFunc`. -/
def relayPlan : Plan :=
  let future : Ty := .ref "Future"
  let entry : Frame := ⟨[future], []⟩
  let resumed : Frame := ⟨[future], [.ref "Object", .top]⟩
  { analysis :=
      { graph := Graph.assemble relayBody [] [2]
        frames := [some entry, some ⟨[future], [.top]⟩, some ⟨[future], [future, .top]⟩, some resumed,
          some ⟨[future], [.top]⟩, some entry, some ⟨[future], [future]⟩]
        entries := [some entry, some resumed]
        resolutions := [] }
    points := [
      { await := { owner := "async/Await", name := "await", params := [future], result := .ref "Object" }
        fields := [future], live := [0], stack := [.top], id := 1, instr := 2 }]
    segments := [[0], [1]]
    continuation := "f$async"
    locals := 1 }

theorem ofFunction_relay :
    ofFunction relayUnit (fun _ => none) .standard 0 = .ok (some relayPlan) := by
  decide +kernel

theorem ofFunction_captures_relay :
    ∃ p set F, relayPlan.points = [p] ∧ relayPlan.analysis.frameAt 2 = some F ∧
      Liveness.forSites ⟨relayUnit, 1, relayBody, relayPlan.analysis⟩ [2] = .ok [(2, set)] ∧
      p.Captures ⟨relayUnit, 1, relayBody, relayPlan.analysis⟩ set F := by
  have hbody : relayUnit.bodyOf relayFunc = .ok relayBody := by decide +kernel
  have hsites : relayUnit.sites .standard relayBody = [2] := by decide +kernel
  have hnarrow : ∀ o ∈ relayPlan.analysis.frames, ∀ F ∈ o,
      relayFunc.maxLocals.toNat + F.stack.length < 2 ^ 32 := by
    decide
  obtain ⟨is, found, his, hfound, hall⟩ := ofFunction_captures ofFunction_relay (f := relayFunc) rfl
    fun i F hF => hnarrow (some F) (List.mem_of_getElem? (Option.join_eq_some_iff.mp hF)) F rfl
  obtain rfl := Except.ok.inj (hbody.symm.trans his)
  rw [hsites] at hfound
  cases hall with
  | @cons q _ _ _ hq hrest =>
    cases hrest
    obtain ⟨s, set⟩ := q
    obtain ⟨rfl, F, hF, hp⟩ := hq
    exact ⟨_, set, F, rfl, hF, hfound, hp⟩

/-- The value on the stack is live while `relayUnit` waits, and it is not captured. -/
theorem ofFunction_leaves_out_slot :
    CodeUnit.parse relayUnit.encode = .ok relayUnit ∧
      ofFunction relayUnit (fun _ => none) .standard 0 = .ok (some relayPlan) ∧
      ∃ set p, relayPlan.points = [p] ∧ p.instr = 2 ∧
        Liveness.forSites ⟨relayUnit, 1, relayBody, relayPlan.analysis⟩ [2] = .ok [(2, set)] ∧
        set.contains 1 ∧ 1 < Liveness.stackPos ⟨relayUnit, 1, relayBody, relayPlan.analysis⟩ p.depth ∧
        1 ∉ p.live := by
  refine ⟨by decide +kernel, ofFunction_relay, (BitSet.insert ∅ 0).insert 1, _, rfl, rfl, ?_, ?_, ?_, ?_⟩
  · decide +kernel
  · decide
  · decide
  · decide

end Plan

end Resumable
