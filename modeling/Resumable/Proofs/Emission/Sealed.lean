import Resumable.Proofs.Emission.Resumption
import Resumable.Proofs.Suspension.Segments

/-!
# Blocks that are copied without loose ends

A set of blocks that no edge leaves can be copied on its own: handlers lead to copies, a block that
falls through is followed by the one that it falls into, and no label stays without a mark. The
segments of a plan are such sets, all of them together and those behind points, so both functions of
a state machine can always be put together.
-/

namespace Resumable

open Fragment List

namespace Emission

variable {e : Emission} {included : List Nat} {handlers : List Handler} {splits : List Int}

/-- The included blocks, in the order of their copies. -/
def stream (e : Emission) (included : List Nat) : List Block :=
  e.plan.analysis.graph.blocks.filter (·.id ∈ included)

/-- Blocks whose copies have no loose ends. -/
structure Sealed (e : Emission) (included : List Nat) : Prop where
  guards : ∃ guards, e.copyGuards included = .ok guards
  follows : ∀ {b : Nat} {B : Block} {i : Instr}, e.plan.analysis.graph.blocks[b]? = some B →
    b ∈ included → e.body[B.last]? = some i → i.fallsThrough →
    ∃ C, C.start = B.stop ∧ [B, C] <:+: e.stream included

section

variable (hd : e.graph.Divides e.body handlers splits)
  (hclosed : e.graph.Closed (fun _ => false) included)

include hd hclosed

/-- Control does not leave a closed set of blocks. -/
theorem next_included {i j : Nat} {x : Instr} (hx : e.body[i]? = some x)
    (hi : e.graph.blockNumber i ∈ included) (hj : j ∈ Graph.nexts x i) :
    e.graph.blockNumber j ∈ included := by
  have hcut : e.graph.Closed
      (· ∈ ([] : List Point).map fun p => e.graph.blockNumber p.instr) included :=
    hclosed
  exact Plan.next_of_closed hd (by simp) hcut hx hi (by simp) hj

/-- The entry of a handler that covers a block of a closed set is in the set. -/
theorem entry_included {b : Nat} {G : Guard} (hG : G ∈ e.graph.guards)
    (hb : b ∈ included) (h1 : G.first ≤ b) (h2 : b ≤ G.last) : G.entry ∈ included := by
  obtain ⟨B, hB, hexc, -⟩ := hclosed b hb
  obtain ⟨-, hlt, hle⟩ := hd.within hB
  have hnumber := hd.number hB (Nat.le_refl _) hlt
  rw [hd.guards, mem_map] at hG
  obtain ⟨⟨h, k⟩, hmem, rfl⟩ := hG
  have hh : h ∈ handlers := mem_of_getElem? (mk_mem_zipIdx_iff_getElem?.mp hmem)
  have hG' : e.graph.guardOf h k ∈ e.graph.guards := by
    rw [hd.guards]
    exact mem_map.mpr ⟨(h, k), hmem, rfl⟩
  have hcov : h.covers B.start := by
    rw [hd.covers_iff hh (by omega), hnumber]
    exact ⟨h1, h2⟩
  exact hexc _ (hd.mem_excSuccs hB (Nat.le_refl _) hlt hG' hcov)

theorem exists_copyGuards : ∃ guards, e.copyGuards included = .ok guards := by
  have hguard : ∀ G ∈ e.graph.guards, ∃ o, e.copyGuard included G = .ok o := by
    intro G hG
    unfold copyGuard
    dsimp only
    split
    next first last hfirst _ =>
      have hmem := mem_of_mem_head? hfirst
      rw [mem_filter, mem_range'_1, decide_eq_true_eq] at hmem
      rw [if_pos (entry_included hd hclosed hG hmem.2 hmem.1.1 (by omega))]
      exact ⟨_, rfl⟩
    next => exact ⟨_, rfl⟩
  unfold copyGuards
  cases hm : e.graph.guards.mapM (e.copyGuard included) with
  | ok os => exact ⟨_, rfl⟩
  | error fault =>
    obtain ⟨G, hG, hfault⟩ := exists_of_mapM_eq_error hm
    obtain ⟨o, ho⟩ := hguard G hG
    rw [ho] at hfault
    cases hfault

/-- **What no edge leaves is copied without loose ends.** -/
theorem sealed_of_closed : e.Sealed included where
  guards := exists_copyGuards hd hclosed
  follows := by
    intro b B i hB hb hi hfall
    have hlt := (hd.within hB).2.1
    have hnext : B.stop ∈ Graph.nexts i B.last := by
      have hlast : B.last + 1 = B.stop := by
        unfold Block.last
        omega
      unfold Graph.nexts
      rw [if_pos hfall, hlast]
      exact mem_cons_self
    have hnumber := hd.number hB (show B.start ≤ B.last by unfold Block.last; omega)
      (show B.last < B.stop by unfold Block.last; omega)
    have hmem := next_included hd hclosed hi (hnumber.symm ▸ hb) hnext
    -- The block behind starts where this one stops, so it is the next one of the graph.
    rcases hd.adjacent hB with ⟨C, hC, hstart⟩ | ⟨-, hend⟩
    · have hwithin := hd.within hC
      rw [hd.number hC (by omega) (by omega)] at hmem
      refine ⟨C, hstart, ?_⟩
      have hsplit : e.graph.blocks = e.graph.blocks.take b ++
          ([B, C] ++ e.graph.blocks.drop (b + 2)) := by
        obtain ⟨hb', rfl⟩ := List.getElem?_eq_some_iff.mp hB
        obtain ⟨hc', rfl⟩ := List.getElem?_eq_some_iff.mp hC
        conv_lhs => rw [← take_append_drop b e.graph.blocks,
          drop_eq_getElem_cons hb', drop_eq_getElem_cons hc']
        rfl
      have hkept : [B, C].filter (·.id ∈ included) = [B, C] := by
        refine filter_eq_self.mpr fun D hD => decide_eq_true ?_
        rcases mem_cons.mp hD with rfl | hD
        · rw [(hd.within hB).1]
          exact hb
        · rw [mem_singleton.mp hD, hwithin.1]
          exact hmem
      unfold stream
      rw [hsplit, filter_append, filter_append, hkept]
      exact ⟨_, _, (append_assoc _ _ _)⟩
    · have := hd.nexts_lt hi _ hnext
      omega

end

/-! ## Labels -/

section

variable {machine : Option UInt32} {pre : List (Item Place)} {rest : List Stop}
  {extra : List (LabelledHandler Place)} {frag : Fragment Place}
  (ha : e.Arranged included machine pre rest extra frag)
  (hd : e.graph.Divides e.body handlers splits)

include ha hd

theorem Arranged.marked_block (hclosed : e.graph.Closed (fun _ => false) included)
    {b : Nat} (hb : b ∈ included) :
    frag.Marked (.blockStart b) ∧ frag.Marked (.blockStop b) := by
  obtain ⟨B, hB, -⟩ := hclosed b hb
  exact ⟨marked_iff.mpr ⟨_, (ha.mem_marks hd).mpr (.inr (.inl ⟨b, B, hB, hb, .inl ⟨rfl, rfl⟩⟩))⟩,
    marked_iff.mpr ⟨_, (ha.mem_marks hd).mpr (.inr (.inl ⟨b, B, hB, hb, .inr ⟨rfl, rfl⟩⟩))⟩⟩

theorem Arranged.marked_slow {s : Stop} (hs : s ∈ rest) : frag.Marked (.slow s.number) := by
  obtain ⟨j, hj⟩ := mem_iff_getElem?.mp hs
  exact marked_iff.mpr ⟨_, (ha.mem_marks hd).mpr (.inr (.inr ⟨j, s, hj, rfl, rfl⟩))⟩

/-- The labels of a copied instruction are marked. -/
theorem Arranged.marked_copied (hclosed : e.graph.Closed (fun _ => false) included)
    (hrest : ∀ s ∈ e.stops, e.graph.blockNumber s.point.instr ∈ included → s ∈ rest)
    {i : Nat} (hi : e.graph.blockNumber i ∈ included) {x : Labelled Place}
    (hx : x ∈ e.copied i) {l : Place} (hl : l ∈ x.labels) : frag.Marked l := by
  have hplain : ∀ {is : List Instr}, x ∈ is.map Labelled.plain → frag.Marked l := by
    intro is hx
    obtain ⟨y, -, rfl⟩ := mem_map.mp hx
    cases hl
  unfold copied copyInstr at hx
  split at hx
  next s hfind =>
    have hinstr : s.point.instr = i := by simpa using find?_some hfind
    have hs := hrest s (mem_of_find?_eq_some hfind) (hinstr ▸ hi)
    unfold fastPath at hx
    rw [codes_append, codes_append, codes_plain, codes_plain, mem_append, mem_append] at hx
    rcases hx with (hx | hx) | hx
    · exact hplain hx
    · obtain rfl := mem_singleton.mp hx
      obtain rfl := mem_singleton.mp hl
      exact ha.marked_slow hd hs
    · exact hplain hx
  next =>
    cases hbody : e.body[i]? with
    | none =>
      rw [hbody] at hx
      cases hx
    | some y =>
      rw [hbody] at hx
      obtain rfl := mem_singleton.mp hx
      rw [labels_relabel] at hl
      obtain ⟨t, ht, rfl⟩ := mem_map.mp hl
      have hj : t.toNat ∈ Graph.nexts y i :=
        mem_append_right _ (mem_map.mpr ⟨t, ht, rfl⟩)
      exact (ha.marked_block hd hclosed (next_included hd hclosed hbody hi hj)).1

/-- **A fragment with closed blocks has no loose labels,** if its first part and its other handlers
have none. -/
theorem Arranged.exists_finish (hclosed : e.graph.Closed (fun _ => false) included)
    (hrest : ∀ s ∈ e.stops, e.graph.blockNumber s.point.instr ∈ included → s ∈ rest)
    (hpre : ∀ x ∈ codes pre, ∀ l ∈ x.labels, frag.Marked l)
    (hextra : ∀ h ∈ extra, frag.Marked h.start ∧ frag.Marked h.stop ∧ frag.Marked h.target) :
    ∃ code, frag.finish = .ok code := by
  refine ⟨(_, _), finish_eq_ok.mpr ⟨⟨fun x hx l hl => ?_, rfl⟩, fun h hh => ?_, rfl⟩⟩
  · rw [ha.items, codes_append, codes_append, codes_copyBlocks hd, mem_append,
      mem_append] at hx
    rcases hx with hx | hx | hx
    · exact hpre x hx l hl
    · obtain ⟨i, hi, hx⟩ := mem_flatMap.mp hx
      unfold kept at hi
      exact ha.marked_copied hd hclosed hrest (of_decide_eq_true (mem_filter.mp hi).2) hx hl
    · rw [codes_flatMap] at hx
      obtain ⟨s, -, hx⟩ := mem_flatMap.mp hx
      rw [slowPath_eq, codes_mark, codes_plain] at hx
      obtain ⟨y, -, rfl⟩ := mem_map.mp hx
      cases hl
  · obtain ⟨guards, hguards, hall⟩ := ha.handlers
    rw [hall] at hh
    rcases mem_append.mp hh with hh | hh
    · obtain ⟨os, hos, hg⟩ := bind_eq_ok.mp hguards
      obtain rfl := pure_eq_ok.mp hg
      obtain ⟨o, ho, rfl⟩ := mem_filterMap.mp hh
      obtain ⟨G, -, hG⟩ := forall₂_exists_mem (mapM_eq_ok.mp hos).flip ho
      rcases copyGuard_cases hG with ⟨h, -⟩ | ⟨first, last, h, hf, hl, he, -⟩
      · cases h
      · cases h
        exact ⟨(ha.marked_block hd hclosed hf).1, (ha.marked_block hd hclosed hl).2,
          (ha.marked_block hd hclosed he).1⟩
    · exact hextra h hh

end

/-! ## Both functions -/

/-- A state machine whose two functions can be put together. -/
structure Whole (e : Emission) : Prop where
  all : e.Sealed e.plan.segments.flatten
  resumed : e.Sealed e.plan.segments.tail.flatten
  /-- The function itself. At every point it may go on to the code that captures what is live. -/
  suspendable : ∃ frag code, e.suspendable = .ok frag ∧ frag.finish = .ok code ∧
    ∀ k < e.plan.points.length,
      .code (.branch .zero (.slow k)) ∈ frag.items ∧ .mark (.slow k) ∈ frag.items
  continuation : ∃ frag code, e.continuation = .ok frag ∧ frag.finish = .ok code

/-- The copy of a point branches to the code that captures what is live there. -/
theorem mem_copyBlocks_of_stop (hd : e.graph.Divides e.body handlers splits)
    (hdistinct : (e.stops.map (·.point.instr)).Nodup) {s : Stop} (hs : s ∈ e.stops)
    (hlt : s.point.instr < e.body.length)
    (hi : e.graph.blockNumber s.point.instr ∈ included) :
    .code (.branch .zero (.slow s.number)) ∈ e.copyBlocks included := by
  have hfind : e.stops.find? (·.point.instr = s.point.instr) = some s := by
    cases h : e.stops.find? (·.point.instr = s.point.instr) with
    | none => exact absurd rfl (of_decide_eq_false (Bool.not_eq_true _ ▸ find?_eq_none.mp h s hs))
    | some s' =>
      have heq : s'.point.instr = s.point.instr := by simpa using find?_some h
      rw [inj_on_of_nodup_map hdistinct (mem_of_find?_eq_some h) hs heq]
  obtain ⟨B, hB, h1, h2⟩ := hd.exists_block hlt
  have hid := (hd.within hB).1
  unfold copyBlocks
  refine mem_flatMap.mpr ⟨B, mem_filter.mpr ⟨mem_of_getElem? hB, ?_⟩, ?_⟩
  · rw [hid]
    exact decide_eq_true hi
  · have hmember : s.point.instr ∈ Subject.members B := by
      unfold Subject.members
      rw [mem_range'_1]
      omega
    have hcopy : .code (.branch .zero (.slow s.number)) ∈ e.copyInstr s.point.instr := by
      unfold copyInstr
      rw [hfind]
      unfold fastPath
      simp
    unfold copyBlock
    exact mem_append_left _ (mem_cons_of_mem _ (mem_flatMap.mpr ⟨_, hmember, hcopy⟩))

theorem exists_suspendable (hd : e.graph.Divides e.body handlers splits)
    (hclosed : e.graph.Closed (fun _ => false) e.plan.segments.flatten)
    (hn : e.Numbered) :
    ∃ frag code, e.suspendable = .ok frag ∧ frag.finish = .ok code ∧
      frag.items = e.copyBlocks e.plan.segments.flatten ++ e.stops.flatMap (e.slowPath none) := by
  obtain ⟨guards, hguards⟩ := exists_copyGuards hd hclosed
  have hfrag : e.suspendable = .ok
      ⟨e.copyBlocks e.plan.segments.flatten ++ e.stops.flatMap (e.slowPath none), guards⟩ := by
    unfold suspendable
    dsimp only
    rw [hguards]
    rfl
  obtain ⟨code, hcode⟩ := (arranged_of_suspendable hfrag hn.nodup).exists_finish hd hclosed
    (fun s hs _ => hs) (fun x hx => by cases hx) (fun h hh => by cases hh)
  exact ⟨_, code, hfrag, hcode, rfl⟩

section

variable {frag : Fragment Place} {machine : Option UInt32} {rest : List Stop}
  {extra : List (LabelledHandler Place)}
  (ha : e.Arranged included machine e.opening rest extra frag)
  (hd : e.graph.Divides e.body handlers splits)

include ha hd

/-- The labels of stubs are marked. -/
theorem Arranged.marked_stub {s : Stop} (hs : s ∈ e.stops) :
    frag.Marked (.stub s.number) ∧ frag.Marked (.joinStart s.number) ∧
      frag.Marked (.joinStop s.number) := by
  obtain ⟨j, hj⟩ := mem_iff_getElem?.mp hs
  have hmark : ∀ {l k}, (l, k) ∈ marksFrom (e.stubAt j) (e.stub s) → frag.Marked l := fun hl =>
    marked_iff.mpr ⟨_, (ha.mem_marks hd).mpr (.inl (mem_marks_opening.mpr (.inr ⟨j, s, hj, hl⟩)))⟩
  exact ⟨hmark (marks_stub.mpr (.inl ⟨rfl, rfl⟩)), hmark (marks_stub.mpr (.inr (.inl ⟨rfl, rfl⟩))),
    hmark (marks_stub.mpr (.inr (.inr ⟨rfl, rfl⟩)))⟩

/-- The labels of the code before the copied blocks are marked. -/
theorem Arranged.marked_opening
    (hclosed : e.graph.Closed (fun _ => false) included)
    (hbehind : ∀ s ∈ e.stops, e.graph.blockNumber (s.point.instr + 1) ∈ included)
    {x : Labelled Place} (hx : x ∈ codes e.opening) {l : Place} (hl : l ∈ x.labels) :
    frag.Marked l := by
  have hplain : ∀ {is : List Instr}, x ∈ is.map Labelled.plain → frag.Marked l := by
    intro is hx
    obtain ⟨y, -, rfl⟩ := mem_map.mp hx
    cases hl
  have hinvalid : frag.Marked .invalid :=
    marked_iff.mpr ⟨10, (ha.mem_marks hd).mpr (.inl (mem_marks_opening.mpr (.inl ⟨rfl, rfl⟩)))⟩
  rw [codes_opening, codes_dispatch, codes_flatMap] at hx
  rcases mem_append.mp hx with hx | hx
  · rcases mem_append.mp hx with hx | hx
    · exact hplain hx
    · rcases mem_append.mp hx with hx | hx
      · rcases mem_cons.mp hx with rfl | hx
        · cases hl
        · obtain rfl := mem_singleton.mp hx
          rcases mem_append.mp hl with hl | hl
          · obtain ⟨s, hs, rfl⟩ := mem_map.mp hl
            exact (ha.marked_stub hd hs).1
          · obtain rfl := mem_singleton.mp hl
            exact hinvalid
      · exact hplain hx
  · obtain ⟨s, hs, hx⟩ := mem_flatMap.mp hx
    rw [codes_stub] at hx
    rcases mem_append.mp hx with hx | hx
    · rcases mem_append.mp hx with hx | hx
      · exact hplain hx
      · exact hplain hx
    · obtain rfl := mem_singleton.mp hx
      obtain rfl := mem_singleton.mp hl
      exact (ha.marked_block hd hclosed (hbehind s hs)).1

end

theorem exists_continuation (hd : e.graph.Divides e.body handlers splits)
    (hclosed : e.graph.Closed (fun _ => false) e.plan.segments.tail.flatten)
    (hn : e.Numbered)
    (hbehind : ∀ p ∈ e.plan.points,
      e.graph.blockNumber (p.instr + 1) ∈ e.plan.segments.tail.flatten)
    (hresumed : ∀ p ∈ e.plan.points, ∀ h ∈ handlers, h.covers p.instr →
      e.graph.blockNumber h.target.toNat ∈ e.plan.segments.tail.flatten) :
    ∃ frag code, e.continuation = .ok frag ∧ frag.finish = .ok code := by
  obtain ⟨guards, hguards⟩ := exists_copyGuards hd hclosed
  obtain ⟨frag, hfrag⟩ : ∃ frag, e.continuation = .ok frag := by
    unfold continuation
    dsimp only
    rw [hguards]
    exact ⟨_, rfl⟩
  have ha := arranged_of_continuation hfrag hn.nodup
  have hpoint : ∀ s ∈ e.stops, s.point ∈ e.plan.points := fun s hs =>
    mem_of_getElem? (hn.mem hs).2
  obtain ⟨code, hcode⟩ := ha.exists_finish hd hclosed
    (fun s hs hb => mem_filter.mpr ⟨hs, decide_eq_true hb⟩)
    (fun x hx l hl => ha.marked_opening hd hclosed (fun s hs => hbehind _ (hpoint s hs)) hx hl)
    (fun h hh => by
      obtain ⟨s, hs, hh⟩ := mem_flatMap.mp hh
      obtain ⟨G, hG, rfl⟩ := mem_map.mp hh
      obtain ⟨hG, hcov⟩ := mem_filter.mp hG
      obtain ⟨h, hh, -, hentry, hcovers⟩ := hd.mem_guards hG
      have hin : G.entry ∈ e.plan.segments.tail.flatten := by
        rw [hentry]
        exact hresumed _ (hpoint s hs) h hh ((hcovers _).symm.trans hcov)
      exact ⟨(ha.marked_stub hd hs).2.1, (ha.marked_stub hd hs).2.2,
        (ha.marked_block hd hclosed hin).1⟩)
  exact ⟨frag, code, hfrag, hcode⟩

/-- **The code of a plan can be put together.** -/
theorem whole_of_make {a : Analyzer} {sites : List Nat}
    (h : Plan.make a e.function e.body sites = .ok e.plan) (hne : e.plan.points ≠ [])
    (hsites : sites.Nodup) (hn : e.Numbered) : e.Whole := by
  have ho := Plan.outlined_of_make h
  have hseg := Plan.segmented_of_make h hne
  have hd := ho.divides
  have hdistinct : (e.stops.map (·.point.instr)).Nodup := by
    have hmap := congrArg (map Point.instr) hn.map_point
    rw [map_map] at hmap
    exact hmap ▸ hsites.sublist ho.order
  refine ⟨sealed_of_closed hd (ho.closed_flatten hne), sealed_of_closed hd hseg.closed, ?_, ?_⟩
  · obtain ⟨frag, code, hfrag, hcode, hitems⟩ := exists_suspendable hd (ho.closed_flatten hne) hn
    refine ⟨frag, code, hfrag, hcode, fun k hk => ?_⟩
    obtain ⟨s, hs⟩ : ∃ s, e.stops[k]? = some s := by
      rw [← hn.map_point, length_map] at hk
      exact ⟨_, getElem?_eq_getElem hk⟩
    have hmem := mem_of_getElem? hs
    obtain ⟨hpoint, hnumber⟩ := hn.getElem? hs
    obtain ⟨⟨n, hcall⟩, -⟩ := ho.point s.point (mem_of_getElem? hpoint)
    have hin := (hseg.framed _).mpr (ho.exists_entryOf_point (mem_of_getElem? hpoint))
    rw [hitems, ← hnumber]
    refine ⟨mem_append_left _ ?_, mem_append_right _ ?_⟩
    · exact mem_copyBlocks_of_stop hd hdistinct hmem (lt_of_getElem? hcall) hin
    · exact mem_flatMap.mpr ⟨s, hmem, mem_cons_self⟩
  · exact exists_continuation hd hseg.closed hn (fun p hp => hseg.root_mem hp (.inl rfl))
      fun p hp h hh hcov => hseg.root_mem hp (.inr ⟨h, hh, hcov, rfl⟩)

end Emission

/-- **Segments cover what can run, and their code can be put together.** A plan is made for the
suspending calls of a body; if there are any that can be reached, then its segments are what can run
between them, and both functions of the state machine come without loose ends. -/
theorem Plan.segmented_and_whole {a : Analyzer} {f : Func} {is : List Instr} {matcher : CallMatcher}
    {plan : Plan} (h : Plan.make a f is (a.unit.sites matcher is) = .ok plan)
    (hne : plan.points ≠ []) :
    plan.Segmented f.handlers ∧ ∀ u, (Emission.prepare f is plan u).1.Whole := by
  refine ⟨segmented_of_make h hne, fun u => ?_⟩
  have hn := Emission.numbered_prepare f is plan u
  exact Emission.whole_of_make h hne (List.nodup_range.filter _) hn

/-- Awaits its parameter again and again. An error of the first call ends the loop. -/
def againFunc : Func where
  name := "again"
  params := [.ref "Future"]
  result := .ref "Future"
  handlers := [{ start := 0, stop := 3, target := 7, cls := "Error", region := 1, kind := 0 }]
  maxStack := 1
  maxLocals := 1

/-- The body of `againFunc`. -/
def againBody : List Instr :=
  [.load 0, .invoke 0, .pop, .load 0, .invoke 0, .pop, .goto 0, .pop, .load 0, .retval]

def againAnalyzer : Analyzer where
  unit := { symbols := [⟨"async/Await", "await", [.ref "Future"], .ref "Object"⟩] }
  classes := ⟨builtinSuper⟩

theorem exists_plan_again :
    ∃ plan, Plan.make againAnalyzer againFunc againBody
        (againAnalyzer.unit.sites .standard againBody) = .ok plan ∧
      plan.points.map Point.instr = [1, 4] ∧ plan.segments = [[0, 4], [1, 2, 4], [0, 3, 4]] := by
  have h : (Plan.make againAnalyzer againFunc againBody
      (againAnalyzer.unit.sites .standard againBody)).toOption.map
        (fun plan => (plan.points.map Point.instr, plan.segments)) =
      some ([1, 4], [[0, 4], [1, 2, 4], [0, 3, 4]]) := by
    decide +kernel
  obtain ⟨plan, hplan, hfields⟩ := Option.map_eq_some_iff.mp h
  exact ⟨plan, toOption_eq_some.mp hplan, (Prod.mk.inj hfields).1, (Prod.mk.inj hfields).2⟩

theorem Plan.segmented_and_whole_again :
    ∃ plan, Plan.make againAnalyzer againFunc againBody
        (againAnalyzer.unit.sites .standard againBody) = .ok plan ∧
      plan.points ≠ [] ∧ plan.segments = [[0, 4], [1, 2, 4], [0, 3, 4]] ∧
      plan.Segmented againFunc.handlers ∧
      ∀ u, (Emission.prepare againFunc againBody plan u).1.Whole := by
  obtain ⟨plan, hplan, hpoints, hsegments⟩ := exists_plan_again
  have hne : plan.points ≠ [] := by
    intro h
    rw [h] at hpoints
    cases hpoints
  exact ⟨plan, hplan, hne, hsegments, Plan.segmented_and_whole hplan hne⟩

end Resumable
