import Resumable.Proofs.Flow.Reach
import Resumable.Proofs.Live.Usable
import Resumable.Suspension.Plan

/-!
# What a plan says

A plan has a point for every suspending call that can be reached, and a point captures every live
position below the awaited future. The blocks of its segments enclose all that can run: control does
not leave them, except that it stops at a point and goes on behind it.
-/

namespace Resumable

open List

/-- What a point says about the call at which it stands, given what is live after it. -/
structure Point.Fits (p : Point) (l : Liveness) (live : UInt32 → Prop) (F : Frame) : Prop where
  call : ∃ n, l.body[p.instr]? = some (.invoke n) ∧ item? l.unit.symbols n = some p.await
  frame : l.analysis.frameAt p.instr = some F
  stack : p.stack = F.stack.tail.reverse
  typed : ∀ {v}, live v → v.toNat < l.locals + p.depth → ∃ t, Plan.typeAt l.locals F v = some t
  mem_live : ∀ {v}, v ∈ p.live ↔ live v ∧ v.toNat < l.locals + p.depth ∧
    ∃ t, Plan.typeAt l.locals F v = some t ∧ Plan.capturable t
  fields : List.Forall₂
    (fun v t => Plan.typeAt l.locals F v = some t ∧ Plan.capturable t) p.live p.fields
  ordered : p.live.Pairwise (· < ·)
  few : p.live.length ≤ 2 ^ 32

namespace Plan

variable {l : Liveness} {p : Point} {plan : Plan} {is : List Instr} {a : Analyzer} {f : Func}

/-- A row of positions, with the types of those that can be captured. -/
theorem captured_eq {F : Frame} {row : List UInt32} {typed : List (UInt32 × Ty)}
    (h : Forall₂ (fun pos q => typeAt l.locals F pos = some q.2 ∧ q.1 = pos) row typed) :
    (∀ {v}, v ∈ (typed.filter fun q => capturable q.2).map Prod.fst ↔
      v ∈ row ∧ ∃ t, typeAt l.locals F v = some t ∧ capturable t) ∧
    Forall₂ (fun v t => typeAt l.locals F v = some t ∧ capturable t)
      ((typed.filter fun q => capturable q.2).map Prod.fst)
      ((typed.filter fun q => capturable q.2).map Prod.snd) ∧
    ((typed.filter fun q => capturable q.2).map Prod.fst).Sublist row := by
  induction h with
  | nil => exact ⟨by simp, .nil, .slnil⟩
  | @cons pos q row typed hq _ ih =>
    obtain ⟨htype, rfl⟩ := hq
    obtain ⟨ihmem, ihfields, ihsub⟩ := ih
    cases hc : capturable q.2 with
    | true =>
      rw [filter_cons_of_pos (by simpa using hc)]
      refine ⟨fun {v} => ?_, .cons ⟨htype, hc⟩ ihfields, ihsub.cons_cons q.1⟩
      rw [map_cons, mem_cons, ihmem, mem_cons]
      constructor
      · rintro (rfl | ⟨hv, hv'⟩)
        · exact ⟨.inl rfl, _, htype, hc⟩
        · exact ⟨.inr hv, hv'⟩
      · rintro ⟨rfl | hv, hv'⟩
        · exact .inl rfl
        · exact .inr ⟨hv, hv'⟩
    | false =>
      rw [filter_cons_of_neg (by simpa using hc)]
      refine ⟨fun {v} => ?_, ihfields, ihsub.cons q.1⟩
      rw [ihmem, mem_cons]
      constructor
      · rintro ⟨hv, hv'⟩
        exact ⟨.inr hv, hv'⟩
      · rintro ⟨rfl | hv, t, ht, hv'⟩
        · rw [htype] at ht
          cases ht
          rw [hc] at hv'
          cases hv'
        · exact ⟨hv, t, ht, hv'⟩

theorem fits_of_point {id instr : Nat} {F : Frame} {set : BitSet}
    (hF : l.analysis.frameAt instr = some F) (hn : l.locals + F.stack.length < 2 ^ 32)
    (hset : set.InReach) (h : point l.unit l id instr F set = .ok p) :
    p.id = id ∧ p.instr = instr ∧ p.Fits l (fun v => set.contains v) F := by
  obtain ⟨call, hcall, h⟩ := bind_eq_ok.mp h
  obtain ⟨typed, htyped, h⟩ := bind_eq_ok.mp h
  obtain rfl := pure_eq_ok.mp h
  have hrow : Forall₂ (fun pos q => typeAt l.locals F pos = some q.2 ∧ q.1 = pos)
      (set.below (l.stackPos F.stack.tail.reverse.length)).toList typed := by
    refine (mapM_eq_ok.mp htyped).imp fun pos q hq => ?_
    obtain ⟨t, ht, hq⟩ := bind_eq_ok.mp hq
    obtain rfl := pure_eq_ok.mp hq
    exact ⟨Attempt.ofOption_eq_ok.mp ht, rfl⟩
  have hbelow {v : UInt32} : v ∈ (set.below (l.stackPos F.stack.tail.reverse.length)).toList ↔
      set.contains v ∧ v.toNat < l.locals + F.stack.tail.reverse.length := by
    have hdepth : F.stack.tail.reverse.length ≤ F.stack.length := by simp
    rw [BitSet.mem_toList (hset.below _), BitSet.contains_below, UInt32.lt_iff_toNat_lt,
      Liveness.toNat_stackPos (by omega), and_comm]
  obtain ⟨hmem, hfields, hsub⟩ := captured_eq hrow
  refine ⟨rfl, rfl, ?_, hF, rfl, fun {v} hv hlt => ?_, fun {v} => ?_, hfields,
    (BitSet.pairwise_toList (hset.below _)).sublist hsub, ?_⟩
  · obtain ⟨i, hi, hcallee⟩ := Option.bind_eq_some_iff.mp (Attempt.ofOption_eq_ok.mp hcall)
    cases i with
    | invoke n => exact ⟨n, hi, hcallee⟩
    | _ => cases hcallee
  · obtain ⟨q, _, hq, _⟩ := forall₂_exists_mem hrow (hbelow.mpr ⟨hv, hlt⟩)
    exact ⟨q.2, hq⟩
  · refine hmem.trans ?_
    rw [hbelow, and_assoc]
    rfl
  · have hlen := BitSet.length_toList (hset.below (l.stackPos F.stack.tail.reverse.length))
    rw [hrow.length_eq] at hlen
    rw [length_map]
    exact Nat.le_trans (length_filter_le _ _) hlen

/-- What a plan says about a body, given what is live after its instructions. -/
structure Fits (plan : Plan) (l : Liveness) (sites : List Nat) (live : Nat → UInt32 → Prop) :
    Prop where
  analysis : plan.analysis = l.analysis
  locals : plan.locals = l.locals
  points : ∀ {k : Nat} {p : Point}, plan.points[k]? = some p →
    p.id = k + 1 ∧ p.instr ∈ sites ∧ ∃ F, p.Fits l (live p.instr) F
  complete : ∀ s ∈ sites, ∀ F, l.analysis.frameAt s = some F → ∃ p ∈ plan.points, p.instr = s
  segments : segmentsOf l.analysis.graph plan.points = .ok plan.segments

theorem make_eq_ok {sites : List Nat} :
    make a f is sites = .ok plan ↔
      ∃ g an found points segments,
        Graph.build f.name is f.handlers (sites.map Int.ofNat) = .ok g ∧
        a.analyze f is g = .ok an ∧
        Liveness.forSites ⟨a.unit, f.maxLocals.toNat, is, an⟩ sites = .ok found ∧
        Forall₂ (fun q p => ∃ F, an.frameAt q.1.1 = some F ∧
          point a.unit ⟨a.unit, f.maxLocals.toNat, is, an⟩ (q.2 + 1) q.1.1 F q.1.2 = .ok p)
          found.zipIdx points ∧
        segmentsOf g points = .ok segments ∧
        plan = ⟨an, points, segments, f.name ++ continuationSuffix, f.maxLocals.toNat⟩ := by
  unfold make
  simp only [bind_eq_ok, pure_eq_ok, mapM_eq_ok, Attempt.ofOption_eq_ok]
  constructor
  · rintro ⟨g, hg, an, han, found, hfound, points, hpoints, segments, hsegments, rfl⟩
    exact ⟨g, an, found, points, segments, hg, han, hfound, hpoints, hsegments, rfl⟩
  · rintro ⟨g, an, found, points, segments, hg, han, hfound, hpoints, hsegments, rfl⟩
    exact ⟨g, hg, an, han, found, hfound, points, hpoints, segments, hsegments, rfl⟩

/-- **The points of a plan are the sites that can be reached,** in their order and numbered from
one. -/
theorem points_of_make {sites : List Nat} (h : make a f is sites = .ok plan) :
    plan.points.map Point.id = range' 1 plan.points.length ∧
      plan.points.map Point.instr =
        sites.filter fun s => (plan.analysis.frameAt s).isSome := by
  obtain ⟨g, an, found, points, segments, -, -, hfound, hpoints, -, rfl⟩ := make_eq_ok.mp h
  have hrow : Forall₂ (fun q p => 1 + q.2 = p.id ∧ q.1.1 = p.instr) found.zipIdx points := by
    refine hpoints.imp fun q p hp => ?_
    obtain ⟨F, -, hp⟩ := hp
    obtain ⟨call, -, hp⟩ := bind_eq_ok.mp hp
    obtain ⟨typed, -, hp⟩ := bind_eq_ok.mp hp
    obtain rfl := pure_eq_ok.mp hp
    exact ⟨Nat.add_comm 1 q.2, rfl⟩
  have hlen : found.length = points.length := by rw [← hrow.length_eq, length_zipIdx]
  have hids : (found.zipIdx.map Prod.snd).map (1 + ·) = points.map Point.id := by
    rw [map_map, ← forall₂_eq_eq_eq, forall₂_map_left_iff, forall₂_map_right_iff]
    exact hrow.imp fun _ _ h => h.1
  have hinstrs : (found.zipIdx.map Prod.fst).map Prod.fst = points.map Point.instr := by
    rw [map_map, ← forall₂_eq_eq_eq, forall₂_map_left_iff, forall₂_map_right_iff]
    exact hrow.imp fun _ _ h => h.2
  rw [zipIdx_map_snd, map_add_range'] at hids
  rw [zipIdx_map_fst, Liveness.forSites_reached hfound] at hinstrs
  exact ⟨hlen ▸ hids.symm, hinstrs.symm⟩

/-- **The plan of a body says where it suspends and what it captures.** -/
theorem fits_of_make {sites : List Nat}
    (h : make a f is sites = .ok plan) (hsites : ∀ s ∈ sites, s < is.length)
    (hn : ∀ i F, plan.analysis.frameAt i = some F → f.maxLocals.toNat + F.stack.length < 2 ^ 32) :
    ∃ l E, l = ⟨a.unit, f.maxLocals.toNat, is, plan.analysis⟩ ∧
      l.Fits (a.context f) f.handlers (sites.map Int.ofNat) (Analyzer.entryFrame f) ∧
      l.entries = .ok E ∧ l.Solves E ∧ plan.Fits l sites (l.LiveAfter E) ∧
      plan.continuation = f.name ++ continuationSuffix := by
  obtain ⟨g, an, found, points, segments, hg, han, hfound, hpoints, hsegments, rfl⟩ :=
    make_eq_ok.mp h
  have hl := Liveness.fits_of_analyze (Graph.divides_of_build hg) han hn
  obtain ⟨E, found', hE, hentries, hfound', hsets, hall⟩ := hl.forSites_table fun s hs =>
    ⟨hsites s hs, mem_map.mpr ⟨s, hs, rfl⟩⟩
  rw [hfound] at hfound'
  cases hfound'
  have hgraph : an.graph = g := by
    obtain ⟨_, _, _, _, _, _, rfl⟩ := Analyzer.analyze_eq_ok.mp han
    rfl
  refine ⟨_, E, rfl, hl, hentries, hE, ⟨rfl, rfl, ?_, ?_, ?_⟩, rfl⟩
  · intro k p hp
    obtain ⟨⟨⟨s, set⟩, k'⟩, hk, F, hF, hpoint⟩ := forall₂_getElem? hpoints hp
    rw [getElem?_zipIdx] at hk
    obtain ⟨q, hq, heq⟩ := Option.map_eq_some_iff.mp hk
    cases heq
    have hmem := mem_of_getElem? hq
    obtain ⟨hs, _, hcontains⟩ := hsets s set hmem
    obtain ⟨hid, rfl, hfits⟩ :=
      fits_of_point hF (hn s F hF) (Liveness.inReach_forSites hfound hmem) hpoint
    refine ⟨by omega, hs, F, { hfits with typed := fun {v} hv => ?_, mem_live := fun {v} => ?_ }⟩
    · exact hfits.typed ((hcontains v).mpr hv)
    · rw [hfits.mem_live, hcontains]
  · intro s hs F hF
    obtain ⟨set, hset⟩ := hall s hs F hF
    obtain ⟨k, hk⟩ := mem_iff_getElem?.mp hset
    have hq : ((s, set), k) ∈ found.zipIdx := mk_mem_zipIdx_iff_getElem?.mpr hk
    obtain ⟨p, hp, F', hF', hpoint⟩ := forall₂_exists_mem hpoints hq
    obtain ⟨_, hinstr, _⟩ :=
      fits_of_point hF' (hn s F' hF') (Liveness.inReach_forSites hfound hset) hpoint
    exact ⟨p, hp, hinstr⟩
  · rw [hgraph]
    exact hsegments

/-! ## Segments -/

/-- Blocks that control does not leave, except at points, behind which it goes on. -/
structure Encloses (plan : Plan) (is : List Instr) (handlers : List Handler)
    (included : List Nat) : Prop where
  next : ∀ {i j : Nat} {instr : Instr}, is[i]? = some instr →
    plan.analysis.graph.blockNumber i ∈ included → (∀ p ∈ plan.points, p.instr ≠ i) →
    j ∈ Graph.nexts instr i → plan.analysis.graph.blockNumber j ∈ included
  caught : ∀ {i : Nat} {h : Handler}, i < is.length →
    plan.analysis.graph.blockNumber i ∈ included → h ∈ handlers → h.covers i →
    plan.analysis.graph.blockNumber h.target.toNat ∈ included
  behind : ∀ p ∈ plan.points, plan.analysis.graph.blockNumber (p.instr + 1) ∈ included
  resumed : ∀ p ∈ plan.points, ∀ h ∈ handlers, h.covers p.instr →
    plan.analysis.graph.blockNumber h.target.toNat ∈ included

section

variable {is : List Instr} {handlers : List Handler} {splits : List Int} {g : Graph}
  (hd : g.Divides is handlers splits)

include hd

/-- A search from which only points are cut is left at points only. -/
theorem next_of_closed {points : List Point} {found : List Nat} {i j : Nat} {instr : Instr}
    (hsplit : ∀ p ∈ points, (p.instr : Int) ∈ splits ∧ p.instr < is.length)
    (hclosed : g.Closed (· ∈ points.map fun p => g.blockNumber p.instr) found)
    (hi : is[i]? = some instr) (hb : g.blockNumber i ∈ found)
    (hpoint : ∀ p ∈ points, p.instr ≠ i) (hj : j ∈ Graph.nexts instr i) :
    g.blockNumber j ∈ found := by
  obtain ⟨B, hB, h1, h2⟩ := hd.exists_block (lt_of_getElem? hi)
  by_cases hlast : i + 1 < B.stop
  · rw [hd.inner hB h1 hlast hi] at hj
    obtain rfl := mem_singleton.mp hj
    rw [hd.number hB (by omega) hlast]
    exact hb
  · obtain rfl : B.last = i := by
      unfold Block.last
      omega
    obtain ⟨B', hB', _, hsuccs⟩ := hclosed _ hb
    rw [hB] at hB'
    cases hB'
    refine hsuccs ?_ _ ?_
    · -- A block that is cut stops with its point.
      rw [decide_eq_false_iff_not]
      intro hcut
      obtain ⟨p, hp, hnumber⟩ := mem_map.mp hcut
      obtain ⟨hs, hlt⟩ := hsplit p hp
      obtain ⟨C, hC, hC1, hC2⟩ := hd.exists_block hlt
      have hstop := hd.split hs hC hC1 hC2
      rw [hnumber, hB] at hC
      cases hC
      exact hpoint p hp (by unfold Block.last; omega)
    · rw [hd.succs hB hi, mem_eraseDups]
      exact mem_map.mpr ⟨j, hj, rfl⟩

theorem caught_of_closed {cut : Nat → Bool} {found : List Nat} {i : Nat} {h : Handler}
    (hclosed : g.Closed cut found) (hi : i < is.length) (hb : g.blockNumber i ∈ found)
    (hh : h ∈ handlers) (hcov : h.covers i) : g.blockNumber h.target.toNat ∈ found := by
  obtain ⟨B, hB, h1, h2⟩ := hd.exists_block hi
  obtain ⟨B', hB', hexc, _⟩ := hclosed _ hb
  rw [hB] at hB'
  cases hB'
  obtain ⟨G, hG, _, hentry, hcovers⟩ := hd.exists_guard hh
  rw [← hentry]
  exact hexc _ (hd.mem_excSuccs hB h1 h2 hG ((hcovers i).trans hcov))

end

theorem segmentsOf_eq_ok {g : Graph} {points : List Point} {segments : List (List Nat)}
    (hne : points ≠ []) :
    segmentsOf g points = .ok segments ↔ ∃ first rest,
      g.reachable [0] (· ∈ points.map fun p => g.blockNumber p.instr) = .ok first ∧
      Forall₂ (fun p found => g.reachable (resumptionRoots g p)
        (· ∈ points.map fun p => g.blockNumber p.instr) = .ok found) points rest ∧
      first :: rest = segments := by
  have hempty : points.isEmpty = false := by simpa using hne
  unfold segmentsOf
  dsimp only
  rw [hempty]
  simp only [Bool.false_eq_true, if_false, bind_eq_ok, pure_eq_ok, mapM_eq_ok]
  constructor
  · rintro ⟨first, hfirst, rest, hrest, rfl⟩
    exact ⟨first, rest, hfirst, hrest, rfl⟩
  · rintro ⟨first, rest, hfirst, hrest, rfl⟩
    exact ⟨first, hfirst, rest, hrest, rfl⟩

/-- **Control stays within the segments,** and after a resumption within those that come after
points. -/
theorem Fits.encloses {sites : List Nat} {live : Nat → UInt32 → Prop} {handlers : List Handler}
    (hp : plan.Fits l sites live)
    (hd : l.analysis.graph.Divides l.body handlers (sites.map Int.ofNat))
    (hne : plan.points ≠ []) :
    plan.analysis.graph.blockNumber 0 ∈ plan.segments.flatten ∧
      plan.Encloses l.body handlers plan.segments.flatten ∧
      plan.Encloses l.body handlers plan.segments.tail.flatten := by
  obtain ⟨first, rest, hfirst, hrest, hsegments⟩ := (segmentsOf_eq_ok hne).mp hp.segments
  have hsplit : ∀ p ∈ plan.points,
      (p.instr : Int) ∈ sites.map Int.ofNat ∧ p.instr < l.body.length := by
    intro p hmem
    obtain ⟨k, hk⟩ := mem_iff_getElem?.mp hmem
    obtain ⟨_, hs, F, hfits⟩ := hp.points hk
    obtain ⟨n, hn, _⟩ := hfits.call
    exact ⟨mem_map.mpr ⟨_, hs, rfl⟩, lt_of_getElem? hn⟩
  obtain ⟨hzero, hclosed⟩ := hd.reachable_closed hfirst
  have hall : ∀ found ∈ rest,
      l.analysis.graph.Closed (· ∈ plan.points.map fun p => l.analysis.graph.blockNumber p.instr)
        found := by
    intro found hfound
    obtain ⟨k, hk⟩ := mem_iff_getElem?.mp hfound
    obtain ⟨p, _, hreach⟩ := forall₂_getElem? hrest hk
    exact (hd.reachable_closed hreach).2
  have hroots : ∀ p ∈ plan.points, ∃ found ∈ rest,
      ∀ b ∈ resumptionRoots l.analysis.graph p, b ∈ found := by
    intro p hmem
    obtain ⟨found, hfound, hreach⟩ := forall₂_exists_mem hrest hmem
    exact ⟨found, hfound, (hd.reachable_closed hreach).1⟩
  have hstart : l.analysis.graph.blockNumber 0 = 0 := by
    obtain ⟨B, hB, hstart⟩ := hd.first
    exact hd.number hB (by omega) (by have := (hd.within hB).2.1; omega)
  -- Any set of segments that holds those after points encloses what can run.
  have hencloses : ∀ some : List (List Nat), rest ⊆ some → some ⊆ first :: rest →
      plan.Encloses l.body handlers some.flatten := by
    intro segs hsub hsup
    have hmem : ∀ {b}, b ∈ segs.flatten ↔ ∃ found ∈ segs, b ∈ found := mem_flatten
    have hcl : ∀ found ∈ segs, l.analysis.graph.Closed
        (· ∈ plan.points.map fun p => l.analysis.graph.blockNumber p.instr) found := by
      intro found hfound
      rcases mem_cons.mp (hsup hfound) with rfl | hfound
      · exact hclosed
      · exact hall found hfound
    refine ⟨?_, ?_, ?_, ?_⟩
    all_goals rw [hp.analysis]
    · intro i j instr hi hb hpoint hj
      obtain ⟨found, hfound, hb⟩ := hmem.mp hb
      exact hmem.mpr ⟨found, hfound, next_of_closed hd hsplit (hcl found hfound) hi hb hpoint hj⟩
    · intro i h hi hb hh hcov
      obtain ⟨found, hfound, hb⟩ := hmem.mp hb
      exact hmem.mpr ⟨found, hfound, caught_of_closed hd (hcl found hfound) hi hb hh hcov⟩
    · intro p hp'
      obtain ⟨found, hfound, hin⟩ := hroots p hp'
      exact hmem.mpr ⟨found, hsub hfound, hin _ mem_cons_self⟩
    · intro p hp' h hh hcov
      obtain ⟨found, hfound, hin⟩ := hroots p hp'
      obtain ⟨G, hG, _, hentry, hcovers⟩ := hd.exists_guard hh
      refine hmem.mpr ⟨found, hsub hfound, hin _ (mem_cons_of_mem _ ?_)⟩
      rw [← hentry]
      exact mem_map.mpr ⟨G, mem_filter.mpr ⟨hG, by rw [hcovers]; exact hcov⟩, rfl⟩
  rw [hp.analysis, hstart, ← hsegments]
  exact ⟨mem_flatten.mpr ⟨first, mem_cons_self, hzero 0 mem_cons_self⟩,
    hencloses _ (subset_cons_self first rest) (Subset.refl _),
    hencloses _ (Subset.refl _) (subset_cons_self first rest)⟩

end Plan

end Resumable
