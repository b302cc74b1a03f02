import Resumable.Proofs.Suspension.Plan
import Resumable.Proofs.Typing.Invariant

/-!
# The segments of a plan

A segment holds the blocks that can run from the entry, or after a resumption, until a point is met.
What a search finds with its cuts is closed up to the cuts, and every edge that is cut leads to a
root of another segment. So the segments together are the blocks that have a frame, and those that
come after points are closed under all edges, also the ones that were cut to find them.
-/

namespace Resumable

open List

namespace Plan

variable {plan : Plan} {a : Analyzer} {f : Func} {is : List Instr} {sites : List Nat}

/-- What a plan is drawn from: the graph of a body, its analysis, and calls that can be reached. -/
structure Outlined (plan : Plan) (a : Analyzer) (f : Func) (is : List Instr) (sites : List Nat) :
    Prop where
  divides : plan.analysis.graph.Divides is f.handlers (sites.map Int.ofNat)
  analyzed : a.analyze f is plan.analysis.graph = .ok plan.analysis
  order : (plan.points.map Point.instr).Sublist sites
  point : ∀ p ∈ plan.points, (∃ n, is[p.instr]? = some (.invoke n)) ∧
    ∃ F, plan.analysis.frameAt p.instr = some F
  segments : segmentsOf plan.analysis.graph plan.points = .ok plan.segments

theorem point_eq_ok {u : CodeUnit} {l : Liveness} {id instr : Nat} {frame : Frame} {live : BitSet}
    {p : Point} (h : point u l id instr frame live = .ok p) :
    p.instr = instr ∧ p.stack = frame.stack.tail.reverse ∧
      ∃ n, l.body[instr]? = some (.invoke n) := by
  obtain ⟨call, hcall, h⟩ := bind_eq_ok.mp h
  obtain ⟨typed, -, h⟩ := bind_eq_ok.mp h
  obtain rfl := pure_eq_ok.mp h
  obtain ⟨i, hi, hcallee⟩ := Option.bind_eq_some_iff.mp (Attempt.ofOption_eq_ok.mp hcall)
  cases i with
  | invoke n => exact ⟨rfl, rfl, n, hi⟩
  | _ => cases hcallee

theorem outlined_of_make (h : make a f is sites = .ok plan) : plan.Outlined a f is sites := by
  obtain ⟨g, an, found, points, segments, hg, han, hfound, hpoints, hsegments, rfl⟩ :=
    make_eq_ok.mp h
  obtain rfl : an.graph = g := by
    obtain ⟨_, _, _, _, _, _, rfl⟩ := Analyzer.analyze_eq_ok.mp han
    rfl
  refine ⟨Graph.divides_of_build hg, han, ?_, fun p hp => ?_, hsegments⟩
  · have hinstr : points.map Point.instr = found.zipIdx.map fun q => q.1.1 := by
      rw [← forall₂_eq_eq_eq, forall₂_map_left_iff, forall₂_map_right_iff]
      refine hpoints.flip.imp fun p q hq => ?_
      obtain ⟨F, -, hpoint⟩ := hq
      exact (point_eq_ok hpoint).1
    have hfst : (found.zipIdx.map fun q => q.1.1) = found.map Prod.fst := by
      conv_rhs => rw [← zipIdx_map_fst 0 found, map_map]
      rfl
    show (points.map Point.instr).Sublist sites
    rw [hinstr, hfst, Liveness.forSites_reached hfound]
    exact filter_sublist
  · obtain ⟨k, hk⟩ := mem_iff_getElem?.mp hp
    obtain ⟨q, -, F, hF, hpoint⟩ := forall₂_getElem? hpoints hk
    obtain ⟨hinstr, -, hcall⟩ := point_eq_ok hpoint
    rw [hinstr]
    exact ⟨hcall, F, hF⟩

/-- Is a block left by suspending? -/
def isCut (plan : Plan) (b : Nat) : Bool :=
  b ∈ plan.points.map fun p => plan.analysis.graph.blockNumber p.instr

/-- What the segments of a plan are. -/
structure Segmented (plan : Plan) (handlers : List Handler) : Prop where
  count : plan.segments.length = plan.points.length + 1
  /-- The first one holds the blocks that can be reached from the entry without passing a point. -/
  first : ∃ segment, plan.segments[0]? = some segment ∧
    ∀ b, b ∈ segment ↔ Relation.ReflTransGen (plan.analysis.graph.Edge plan.isCut) 0 b
  /-- The others hold those that can be reached from behind their points or from their handlers. -/
  behind : ∀ {k : Nat} {p : Point}, plan.points[k]? = some p →
    ∃ segment, plan.segments[k + 1]? = some segment ∧ ∀ b, b ∈ segment ↔
      ∃ r, (r = plan.analysis.graph.blockNumber (p.instr + 1) ∨
          ∃ h ∈ handlers, h.covers p.instr ∧ r = plan.analysis.graph.blockNumber h.target.toNat) ∧
        Relation.ReflTransGen (plan.analysis.graph.Edge plan.isCut) r b
  framed : ∀ b, b ∈ plan.segments.flatten ↔ ∃ F, plan.analysis.entryOf b = some F
  /-- Blocks that can run after a resumption lead to such blocks only, also past points. -/
  closed : plan.analysis.graph.Closed (fun _ => false) plan.segments.tail.flatten

namespace Outlined

variable (ho : plan.Outlined a f is sites)

include ho

/-- The block of a point ends with it, and goes on right behind it. -/
theorem exists_block_of_point {p : Point} (hp : p ∈ plan.points) :
    ∃ B, plan.analysis.graph.blocks[plan.analysis.graph.blockNumber p.instr]? = some B ∧
      B.start ≤ p.instr ∧ B.stop = p.instr + 1 ∧
      B.succs = [plan.analysis.graph.blockNumber (p.instr + 1)] := by
  obtain ⟨⟨n, hn⟩, -⟩ := ho.point p hp
  have hsite := ho.order.subset (mem_map_of_mem hp)
  have hd := ho.divides
  obtain ⟨B, hB, h1, h2⟩ := hd.exists_block (lt_of_getElem? hn)
  have hstop := hd.split (mem_map.mpr ⟨_, hsite, rfl⟩) hB h1 h2
  have hlast : B.last = p.instr := by
    unfold Block.last
    omega
  refine ⟨B, hB, h1, hstop, ?_⟩
  rw [hd.succs hB (hlast.symm ▸ hn), hlast]
  rfl

/-- The block of a point has a frame. -/
theorem exists_entryOf_point {p : Point} (hp : p ∈ plan.points) :
    ∃ F, plan.analysis.entryOf (plan.analysis.graph.blockNumber p.instr) = some F := by
  have hd := ho.divides
  obtain ⟨-, F, hF⟩ := ho.point p hp
  obtain ⟨_, K, _, _, -, -, -, hK, -⟩ := ((Analyzer.frameAt_iff hd ho.analyzed).mp hF).within
    (s := a.subject f is plan.analysis.graph) hd
  exact ⟨K, hK⟩

/-- The roots of the segment behind a point. -/
theorem mem_resumptionRoots {p : Point} {r : Nat} :
    r ∈ resumptionRoots plan.analysis.graph p ↔
      r = plan.analysis.graph.blockNumber (p.instr + 1) ∨
        ∃ h ∈ f.handlers, h.covers p.instr ∧
          r = plan.analysis.graph.blockNumber h.target.toNat := by
  have hd := ho.divides
  unfold resumptionRoots
  rw [mem_cons, mem_map]
  refine or_congr_right ⟨?_, ?_⟩
  · rintro ⟨G, hG, rfl⟩
    obtain ⟨hG, hcov⟩ := mem_filter.mp hG
    obtain ⟨h, hh, -, hentry, hcovers⟩ := hd.mem_guards hG
    exact ⟨h, hh, hcovers p.instr ▸ hcov, hentry⟩
  · rintro ⟨h, hh, hcov, rfl⟩
    obtain ⟨G, hG, -, hentry, hcovers⟩ := hd.exists_guard hh
    exact ⟨G, mem_filter.mpr ⟨hG, (hcovers p.instr).trans hcov⟩, hentry⟩

theorem exists_segments (hne : plan.points ≠ []) : ∃ first rest,
    plan.analysis.graph.reachable [0] plan.isCut = .ok first ∧
    Forall₂ (fun p found => plan.analysis.graph.reachable
      (resumptionRoots plan.analysis.graph p) plan.isCut = .ok found) plan.points rest ∧
    first :: rest = plan.segments :=
  (segmentsOf_eq_ok hne).mp ho.segments

variable {first : List Nat} {rest : List (List Nat)}
  (hfirst : plan.analysis.graph.reachable [0] plan.isCut = .ok first)
  (hrest : List.Forall₂ (fun p found => plan.analysis.graph.reachable
    (resumptionRoots plan.analysis.graph p) plan.isCut = .ok found) plan.points rest)

include hfirst hrest

/-- **Segments are closed together:** every edge that was cut leads to the segment behind a point. -/
theorem closed_segments {segments : List (List Nat)} (hsub : rest ⊆ segments)
    (hsup : segments ⊆ first :: rest) :
    plan.analysis.graph.Closed (fun _ => false) segments.flatten := by
  have hd := ho.divides
  intro b hb
  obtain ⟨found, hfound, hb⟩ := mem_flatten.mp hb
  have hclosed : plan.analysis.graph.Closed plan.isCut found := by
    rcases mem_cons.mp (hsup hfound) with rfl | hmem
    · exact (hd.reachable_closed hfirst).2
    · obtain ⟨k, hk⟩ := mem_iff_getElem?.mp hmem
      obtain ⟨p, -, hreach⟩ := forall₂_getElem? hrest hk
      exact (hd.reachable_closed hreach).2
  obtain ⟨B, hB, hexc, hsuccs⟩ := hclosed b hb
  refine ⟨B, hB, fun c hc => mem_flatten.mpr ⟨found, hfound, hexc c hc⟩, fun _ c hc => ?_⟩
  cases hcut : plan.isCut b with
  | false => exact mem_flatten.mpr ⟨found, hfound, hsuccs hcut c hc⟩
  | true =>
    obtain ⟨p, hp, rfl⟩ := mem_map.mp (of_decide_eq_true hcut)
    obtain ⟨B', hB', -, -, hbehind⟩ := ho.exists_block_of_point hp
    rw [hB] at hB'
    cases hB'
    rw [hbehind, mem_singleton] at hc
    subst hc
    obtain ⟨found', hfound', hreach⟩ := forall₂_exists_mem hrest hp
    refine mem_flatten.mpr ⟨found', hsub hfound', ?_⟩
    exact (hd.reachable_closed hreach).1 _ mem_cons_self

omit hfirst hrest in
theorem closed_flatten (hne : plan.points ≠ []) :
    plan.analysis.graph.Closed (fun _ => false) plan.segments.flatten := by
  obtain ⟨first, rest, hfirst, hrest, hsegments⟩ := ho.exists_segments hne
  rw [← hsegments]
  exact ho.closed_segments hfirst hrest (subset_cons_self first rest) (Subset.refl _)

/-- Blocks of segments have frames, since edges lead from frames to frames. -/
theorem exists_entryOf_of_mem {found : List Nat} {b : Nat} (hfound : found ∈ first :: rest)
    (hb : b ∈ found) : ∃ F, plan.analysis.entryOf b = some F := by
  have hd := ho.divides
  have hedges : ∀ {r b}, (∃ F, plan.analysis.entryOf r = some F) →
      Relation.ReflTransGen (plan.analysis.graph.Edge plan.isCut) r b →
      ∃ F, plan.analysis.entryOf b = some F := by
    intro r b hr hrb
    induction hrb with
    | refl => exact hr
    | tail _ he ih =>
      obtain ⟨F, hF⟩ := ih
      cases he with
      | succ hB _ hc => exact Analyzer.exists_entryOf hd ho.analyzed hF hB (.inl hc)
      | handler hB hc => exact Analyzer.exists_entryOf hd ho.analyzed hF hB (.inr hc)
  rcases mem_cons.mp hfound with rfl | hfound
  · obtain ⟨r, hr, hrb⟩ := (hd.mem_reachable hfirst).mp hb
    obtain rfl := mem_singleton.mp hr
    obtain ⟨F, hF, -⟩ := (Analyzer.analyze_sound a.classes.bounds_true hd ho.analyzed).entry
    exact hedges ⟨F, hF⟩ hrb
  · obtain ⟨k, hk⟩ := mem_iff_getElem?.mp hfound
    obtain ⟨p, hp, hreach⟩ := forall₂_getElem? hrest hk
    obtain ⟨r, hr, hrb⟩ := (hd.mem_reachable hreach).mp hb
    refine hedges ?_ hrb
    -- The block of the point has a frame, and its edges lead to the roots.
    have hmem := mem_of_getElem? hp
    obtain ⟨B, hB, h1, hstop, hbehind⟩ := ho.exists_block_of_point hmem
    obtain ⟨K, hK⟩ := ho.exists_entryOf_point hmem
    refine Analyzer.exists_entryOf hd ho.analyzed hK hB ?_
    rcases ho.mem_resumptionRoots.mp hr with rfl | ⟨h, hh, hcov, rfl⟩
    · exact .inl (hbehind ▸ mem_singleton_self _)
    · obtain ⟨G, hG, -, hentry, hcovers⟩ := hd.exists_guard hh
      rw [← hentry]
      exact .inr (hd.mem_excSuccs hB h1 (by omega) hG ((hcovers p.instr).trans hcov))

end Outlined

/-- **The segments of a plan:** each holds what can run until a point is met, together they hold the
blocks that have frames, and those that come after points are not left. -/
theorem segmented_of_make (h : make a f is sites = .ok plan) (hne : plan.points ≠ []) :
    plan.Segmented f.handlers := by
  have ho := outlined_of_make h
  have hd := ho.divides
  obtain ⟨first, rest, hfirst, hrest, hsegments⟩ := ho.exists_segments hne
  have hall := ho.closed_flatten hne
  rw [← hsegments] at hall
  have htail := ho.closed_segments hfirst hrest (Subset.refl rest)
    (subset_cons_self first rest)
  refine ⟨?_, ⟨first, ?_, fun b => ?_⟩, fun {k p} hk => ?_, fun b => ⟨?_, ?_⟩, ?_⟩
  any_goals rw [← hsegments]
  · rw [length_cons, hrest.length_eq]
  · rfl
  · simpa using hd.mem_reachable hfirst
  · obtain ⟨found, hfound, hreach⟩ := forall₂_getElem? hrest.flip hk
    refine ⟨found, hfound, fun b => ?_⟩
    rw [hd.mem_reachable hreach]
    simp only [ho.mem_resumptionRoots]
  · intro hb
    obtain ⟨found, hfound, hb⟩ := mem_flatten.mp hb
    exact ho.exists_entryOf_of_mem hfirst hrest hfound hb
  · rintro ⟨F, hF⟩
    -- The first block is in the first segment, and the segments together are closed.
    refine Analyzer.entryOf_induction (· ∈ (first :: rest).flatten) hd ho.analyzed ?_ ?_ hF
    · exact mem_append_left _ ((hd.reachable_closed hfirst).1 0 mem_cons_self)
    · intro b c B hb hB hc
      obtain ⟨B', hB', hexc, hsuccs⟩ := hall b hb
      rw [hB] at hB'
      cases hB'
      exact hc.elim (hsuccs rfl c) (hexc c)
  · exact htail

/-- The roots of the segment behind a point are in it. -/
theorem Segmented.root_mem {handlers : List Handler} (h : plan.Segmented handlers) {p : Point}
    (hp : p ∈ plan.points) {r : Nat}
    (hr : r = plan.analysis.graph.blockNumber (p.instr + 1) ∨
      ∃ h ∈ handlers, h.covers p.instr ∧ r = plan.analysis.graph.blockNumber h.target.toNat) :
    r ∈ plan.segments.tail.flatten := by
  obtain ⟨k, hk⟩ := mem_iff_getElem?.mp hp
  obtain ⟨segment, hsegment, hmem⟩ := h.behind hk
  rw [← getElem?_tail] at hsegment
  exact mem_flatten.mpr ⟨segment, mem_of_getElem? hsegment, (hmem r).mpr ⟨r, hr, .refl⟩⟩

end Plan

end Resumable
