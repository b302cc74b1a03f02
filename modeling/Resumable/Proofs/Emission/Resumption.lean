import Resumable.Proofs.Emission.Layout
import Resumable.Proofs.Emission.Tables
import Resumable.Proofs.Suspension.Plan

/-!
# How a continuation begins

A continuation moves its parameters behind the locals of the function, looks at the resumption index
and goes to the stub of a point. The stub puts back what was captured, takes the outcome of the
awaited future and goes on behind the point. The handlers that covered the point cover the taking of
the outcome, and nothing else before the copied blocks.
-/

namespace Resumable

open Fragment List

namespace Emission

variable {e : Emission} {frag : Fragment Place} {splits : List Int} {hs : List Handler}
  {is : List Instr} {s : Stop}

/-! ## Locals of the emitted code -/

theorem depth_le_deepest {p : Point} (hp : p ∈ e.plan.points) : p.depth ≤ e.deepest := by
  have hfold : ∀ (row : List Point) (n : Nat),
      n ≤ row.foldl (fun n p => max n p.depth) n ∧
        ∀ p ∈ row, p.depth ≤ row.foldl (fun n p => max n p.depth) n := by
    intro row
    induction row with
    | nil => exact fun n => ⟨Nat.le_refl n, by simp⟩
    | cons q row ih =>
      intro n
      obtain ⟨h1, h2⟩ := ih (max n q.depth)
      refine ⟨Nat.le_trans (Nat.le_max_left _ _) h1, fun p hp => ?_⟩
      rcases mem_cons.mp hp with rfl | hp
      · exact Nat.le_trans (Nat.le_max_right _ _) h1
      · exact h2 p hp
  exact (hfold e.plan.points 0).2 p hp

/-- The locals of the emitted code can be numbered by 32 bits. -/
def Roomy (e : Emission) : Prop := e.plan.locals + e.deepest + 5 < 2 ^ 32

section

variable (hroom : e.Roomy)

include hroom

theorem Roomy.toNat_scratch : e.scratch.toNat = e.plan.locals := by
  unfold Roomy at hroom
  exact UInt32.toNat_ofNat_of_lt' (show _ < 2 ^ 32 by omega)

theorem Roomy.toNat_spill {k : Nat} (hk : k ≤ e.deepest) :
    (e.spill k).toNat = e.plan.locals + 1 + k := by
  unfold Roomy at hroom
  have hsum : e.spill k = UInt32.ofNat (e.plan.locals + 1 + k) := by
    simp only [UInt32.ofNat_add]
    rfl
  rw [hsum, UInt32.toNat_ofNat_of_lt' (show _ < 2 ^ 32 by omega)]

theorem Roomy.toNat_home {k : Nat} (hk : k ≤ 3) :
    (e.home k).toNat = e.plan.locals + 1 + e.deepest + k := by
  unfold Roomy at hroom
  have hsum : e.home k = UInt32.ofNat (e.plan.locals + 1 + e.deepest + k) := by
    simp only [UInt32.ofNat_add]
    rfl
  rw [hsum, UInt32.toNat_ofNat_of_lt' (show _ < 2 ^ 32 by omega)]

/-- Where the value of a position is while a point captures. -/
theorem Roomy.toNat_captured {pos : UInt32} (h : pos.toNat ≤ e.plan.locals + e.deepest) :
    (e.captured pos).toNat =
      if pos.toNat < e.plan.locals then pos.toNat else pos.toNat + 1 := by
  unfold captured
  split
  · rfl
  · rw [hroom.toNat_spill (by omega)]
    omega

end

/-! ## The code before the copied blocks -/

/-- The code that moves the parameters of the continuation. -/
def moveCode (e : Emission) : List Instr :=
  [.load 3, .store (e.home 3), .load 2, .store (e.home 2), .load 1, .store (e.home 1),
   .load 0, .store (e.home 0)]

/-- The code for resumption indices that there are not. -/
def invalidCode (e : Emission) : List Instr := [.sconst e.invalidIndex, .invoke e.newError, .raise]

/-- The code that puts back what was captured. -/
def restoreCode (e : Emission) (s : Stop) : List Instr := e.restoreLocals s ++ e.restoreStack s

/-- The code that takes the outcome of the awaited future. -/
def joinCode (e : Emission) (s : Stop) : List Instr :=
  [.load (e.home 3), .invoke e.join] ++ s.adapt

/-- All that comes before the copied blocks. -/
def opening (e : Emission) : List (Item Place) :=
  e.moveParams ++ e.dispatch ++ e.stops.flatMap e.stub

/-- Where the stub of a point stands. -/
def stubAt (e : Emission) (k : Nat) : Nat := 13 + (codes ((e.stops.take k).flatMap e.stub)).length

/-- Where the code of a stub takes the outcome. -/
def joinAt (e : Emission) (s : Stop) : Nat := e.stubAt s.number + (e.restoreCode s).length

theorem codes_moveParams : codes e.moveParams = e.moveCode.map .plain := rfl

theorem codes_dispatch :
    codes e.dispatch =
      [.plain (.load (e.home 1)), .switch 1 (e.stops.map fun s => .stub s.number) .invalid] ++
        e.invalidCode.map .plain := rfl

theorem codes_stub :
    codes (e.stub s) = (e.restoreCode s).map .plain ++ (e.joinCode s).map .plain ++
      [.goto (.blockStart (e.graph.blockNumber (s.point.instr + 1)))] := by
  unfold stub restoreCode joinCode
  simp [codes_plain]

theorem marks_stub {pc k : Nat} {l : Place} :
    (l, k) ∈ marksFrom pc (e.stub s) ↔
      (l = .stub s.number ∧ k = pc) ∨
      (l = .joinStart s.number ∧ k = pc + (e.restoreCode s).length) ∨
      (l = .joinStop s.number ∧ k = pc + (e.restoreCode s).length + (e.joinCode s).length) := by
  unfold stub restoreCode joinCode
  simp only [marksFrom_append, marksFrom, marksFrom_plain, codes_append, codes_plain, codes_mark,
    codes_nil, append_nil, length_map, nil_append, cons_append, mem_cons,
    not_mem_nil, or_false, Prod.mk.injEq, length_append, Nat.add_assoc]

theorem codes_opening :
    codes e.opening = (e.moveCode.map .plain ++ codes e.dispatch) ++ codes (e.stops.flatMap e.stub) := by
  unfold opening
  rw [codes_append, codes_append, codes_moveParams]

theorem mem_marks_opening {l : Place} {k : Nat} :
    (l, k) ∈ marksFrom 0 e.opening ↔ (l = .invalid ∧ k = 10) ∨
      ∃ j s, e.stops[j]? = some s ∧ (l, k) ∈ marksFrom (e.stubAt j) (e.stub s) := by
  have hmoves : marksFrom 0 e.moveParams = [] := rfl
  have hdispatch : marksFrom 8 e.dispatch = [(.invalid, 10)] := rfl
  have hlen : (codes e.moveParams).length = 8 ∧ (codes e.dispatch).length = 5 := ⟨rfl, rfl⟩
  unfold opening stubAt
  rw [marksFrom_append, marksFrom_append, codes_append, length_append, hmoves, hlen.1, hlen.2,
    Nat.zero_add, hdispatch, nil_append, mem_append, mem_singleton, Prod.mk.injEq,
    mem_marksFrom_flatMap]

/-! ## The fragment of a continuation -/

theorem arranged_of_suspendable (h : e.suspendable = .ok frag)
    (hnum : (e.stops.map Stop.number).Nodup) :
    e.Arranged e.plan.segments.flatten none [] e.stops [] frag := by
  obtain ⟨guards, hguards, h⟩ := bind_eq_ok.mp h
  obtain rfl := pure_eq_ok.mp h
  exact ⟨rfl, ⟨guards, hguards, (append_nil guards).symm⟩, (fun h => by cases h), hnum⟩

theorem arranged_of_continuation (h : e.continuation = .ok frag)
    (hnum : (e.stops.map Stop.number).Nodup) :
    e.Arranged e.plan.segments.tail.flatten (some (e.home 0)) e.opening
      (e.stops.filter (e.hasStop e.plan.segments.tail.flatten)) (e.stops.flatMap e.joinHandlers)
      frag := by
  obtain ⟨guards, hguards, h⟩ := bind_eq_ok.mp h
  obtain rfl := pure_eq_ok.mp h
  refine ⟨append_assoc _ _ _, ⟨guards, hguards, rfl⟩, fun {l k} hl b => ?_, ?_⟩
  · rcases mem_marks_opening.mp hl with ⟨rfl, _⟩ | ⟨_, _, _, hl⟩
    · exact ⟨Place.noConfusion, Place.noConfusion, Place.noConfusion⟩
    · rcases marks_stub.mp hl with ⟨rfl, _⟩ | ⟨rfl, _⟩ | ⟨rfl, _⟩ <;>
        exact ⟨Place.noConfusion, Place.noConfusion, Place.noConfusion⟩
  · exact hnum.sublist (filter_sublist.map _)

section

variable {included : List Nat} {machine : Option UInt32} {rest : List Stop}
  {extra : List (LabelledHandler Place)} {frag : Fragment Place} {is : List Instr}
  {hs : List Handler} {handlers : List Handler} {splits : List Int}
  (ha : e.Arranged included machine e.opening rest extra frag)
  (hd : e.graph.Divides e.body handlers splits)
  (hfin : frag.finish = .ok (is, hs)) (hsize : is.length < 2 ^ 32)
  (hnum : ∀ {k : Nat} {s : Stop}, e.stops[k]? = some s → s.number = k)

include ha hd

theorem address_invalid : frag.address .invalid = 10 := by
  refine address_of_mem ((ha.mem_marks hd).mpr (.inl (mem_marks_opening.mpr (.inl ⟨rfl, rfl⟩)))) ?_
  intro k hk
  rcases (ha.mem_marks hd).mp hk with hk | ⟨_, _, _, _, ⟨h, _⟩ | ⟨h, _⟩⟩ | ⟨_, _, _, h, _⟩
  · rcases mem_marks_opening.mp hk with ⟨_, rfl⟩ | ⟨_, _, _, hl⟩
    · rfl
    · rcases marks_stub.mp hl with ⟨h, _⟩ | ⟨h, _⟩ | ⟨h, _⟩ <;> cases h
  all_goals cases h

include hnum in
/-- A label that is marked in a stub has its only mark there. -/
theorem address_of_stub {j k : Nat} {s : Stop} {l : Place} (hs : e.stops[j]? = some s)
    (hl : (l, k) ∈ marksFrom (e.stubAt j) (e.stub s)) : frag.address l = UInt32.ofNat k := by
  refine address_of_mem
    ((ha.mem_marks hd).mpr (.inl (mem_marks_opening.mpr (.inr ⟨j, s, hs, hl⟩)))) ?_
  have hstub := marks_stub.mp hl
  intro k' hk'
  rcases (ha.mem_marks hd).mp hk' with hk' | ⟨_, _, _, _, ⟨rfl, _⟩ | ⟨rfl, _⟩⟩ | ⟨_, _, _, rfl, _⟩
  · rcases mem_marks_opening.mp hk' with ⟨rfl, _⟩ | ⟨j', s', hs', hl'⟩
    · simp at hstub
    · -- Labels of stubs hold the number of the stub.
      have hstub' := marks_stub.mp hl'
      have hnumber : s.number = s'.number := by
        rcases hstub with ⟨rfl, _⟩ | ⟨rfl, _⟩ | ⟨rfl, _⟩ <;>
          simp at hstub' <;> exact hstub'.1
      rw [hnum hs, hnum hs'] at hnumber
      subst hnumber
      rw [hs] at hs'
      cases hs'
      rcases hstub with ⟨rfl, rfl⟩ | ⟨rfl, rfl⟩ | ⟨rfl, rfl⟩ <;> simpa using hstub'
  all_goals simp at hstub

omit hd

include hfin

/-- The code at the start of a continuation. -/
theorem sits_opening :
    Sits is 0 (e.moveCode ++
      [.load (e.home 1), .switch 1 (e.stops.map fun s => frag.address (.stub s.number))
        (frag.address .invalid)] ++ e.invalidCode) := by
  obtain ⟨⟨_, rfl⟩, _⟩ := finish_eq_ok.mp hfin
  have hall : codes frag.items = [] ++ ((e.moveCode.map .plain ++ codes e.dispatch) ++
      (codes (e.stops.flatMap e.stub) ++
        codes (e.copyBlocks included ++ rest.flatMap (e.slowPath machine)))) := by
    rw [ha.items, codes_append, codes_opening]
    simp only [append_assoc, nil_append]
  refine sits_of_eq (congrArg _ hall) ?_ rfl
  rw [codes_dispatch]
  simp only [map_append, append_assoc, map_cons, map_nil, Labelled.toInstr,
    map_map]
  rfl

theorem sits_stub {j : Nat} {s : Stop} (hs : e.stops[j]? = some s) :
    Sits is (e.stubAt j) (e.restoreCode s ++ (e.joinCode s ++ [.goto (frag.address
      (.blockStart (e.graph.blockNumber (s.point.instr + 1))))])) := by
  obtain ⟨⟨_, rfl⟩, _⟩ := finish_eq_ok.mp hfin
  have hall : codes frag.items =
      ((e.moveCode.map .plain ++ codes e.dispatch) ++ codes ((e.stops.take j).flatMap e.stub)) ++
        (codes (e.stub s) ++ (codes ((e.stops.drop (j + 1)).flatMap e.stub) ++
          codes (e.copyBlocks included ++ rest.flatMap (e.slowPath machine)))) := by
    rw [ha.items, codes_append, codes_opening, codes_flatMap_split hs]
    simp only [append_assoc]
  refine sits_of_eq (congrArg _ hall) ?_ ?_
  · rw [codes_stub]
    simp only [map_append, toInstr_map_plain, append_assoc, map_cons, map_nil,
      Labelled.toInstr]
  · rw [length_append]
    rfl

end

/-! ## Handlers of the stubs -/

/-- Handlers over one range cover all of it and nothing else. -/
theorem coversAt_over {gs : List Guard} {start stop : Place} {q : Nat} :
    coversAt ((gs.map (handlerOver · start stop)).map (LabelledHandler.toHandler frag.address)) q =
      if (frag.address start).toNat ≤ q ∧ q < (frag.address stop).toNat then
        gs.map fun g => ⟨g.cls, (frag.address (.blockStart g.entry)).toNat, g.region, g.kind⟩
      else [] := by
  induction gs with
  | nil => exact (ite_self []).symm
  | cons g gs ih =>
    rw [map_cons, map_cons, coversAt_cons, ih]
    simp only [Handler.covers_iff]
    show (if (frag.address start).toNat ≤ q ∧ q < (frag.address stop).toNat then _ else _) ++ _ = _
    split <;> rfl

theorem stubAt_succ {j : Nat} (hs : e.stops[j]? = some s) :
    e.stubAt (j + 1) = e.stubAt j + (e.restoreCode s).length + (e.joinCode s).length + 1 := by
  unfold stubAt
  rw [take_add_one, hs, flatMap_append, codes_append, length_append]
  simp only [Option.toList_some, flatMap_cons, flatMap_nil, append_nil, codes_stub,
    length_append, length_map, length_singleton]
  omega

theorem stubAt_mono {j k : Nat} (h : j ≤ k) : e.stubAt j ≤ e.stubAt k := by
  obtain ⟨m, rfl⟩ := Nat.exists_eq_add_of_le h
  unfold stubAt
  rw [take_add, flatMap_append, codes_append, length_append]
  omega

theorem length_opening : (codes e.opening).length = e.stubAt e.stops.length := by
  unfold stubAt
  rw [codes_opening, length_append, length_append, take_length]
  rfl

/-- A row of parts all but one of which are empty. -/
theorem flatMap_eq_single {α β : Type} {row : List α} {f : α → List β} {j : Nat} {a : α}
    (h : row[j]? = some a) (hother : ∀ (k : Nat) (b : α), row[k]? = some b → k ≠ j → f b = []) :
    row.flatMap f = f a := by
  induction row generalizing j with
  | nil => cases h
  | cons b row ih =>
    rw [flatMap_cons]
    cases j with
    | zero =>
      cases h
      have hrest : row.flatMap f = [] := by
        rw [flatMap_eq_nil_iff]
        intro c hc
        obtain ⟨k, hk⟩ := mem_iff_getElem?.mp hc
        exact hother (k + 1) c hk (Nat.succ_ne_zero k)
      rw [hrest, append_nil]
    | succ j =>
      rw [hother 0 b rfl (Nat.succ_ne_zero j).symm, nil_append]
      exact ih h fun k c hk hne => hother (k + 1) c hk (by omega)

/-- The taking of an outcome stands before the copied blocks. -/
theorem joinAt_le (hnum : ∀ {k : Nat} {s : Stop}, e.stops[k]? = some s → s.number = k)
    (hs : s ∈ e.stops) : e.joinAt s + (e.joinCode s).length ≤ (codes e.opening).length := by
  obtain ⟨j, hj⟩ := mem_iff_getElem?.mp hs
  have hsucc := stubAt_succ hj
  have hmono : e.stubAt (j + 1) ≤ e.stubAt e.stops.length :=
    stubAt_mono (lt_of_getElem? hj)
  unfold joinAt
  rw [length_opening, hnum hj]
  omega

section

variable {included : List Nat} {machine : Option UInt32} {rest : List Stop}
  {extra : List (LabelledHandler Place)} {frag : Fragment Place} {is : List Instr}
  {hs : List Handler} {handlers : List Handler} {splits : List Int}
  (ha : e.Arranged included machine e.opening rest extra frag)
  (hd : e.graph.Divides e.body handlers splits)
  (hfin : frag.finish = .ok (is, hs)) (hsize : is.length < 2 ^ 32)
  (hnum : ∀ {k : Nat} {s : Stop}, e.stops[k]? = some s → s.number = k)

include ha hd hfin hsize hnum

omit hsize hnum in
theorem opening_le : (codes e.opening).length ≤ is.length := by
  have := ha.place_le hd hfin (Nat.zero_le _)
  omega

/-- The places of the labels of a stub. -/
theorem toNat_stub {j : Nat} {s : Stop} (hs : e.stops[j]? = some s) :
    (frag.address (.stub s.number)).toNat = e.stubAt j ∧
      (frag.address (.joinStart s.number)).toNat = e.joinAt s ∧
      (frag.address (.joinStop s.number)).toNat = e.joinAt s + (e.joinCode s).length := by
  have hle := opening_le ha hd hfin
  have hsucc := stubAt_succ hs
  have hmono : e.stubAt (j + 1) ≤ e.stubAt e.stops.length :=
    stubAt_mono (lt_of_getElem? hs)
  rw [length_opening] at hle
  have hat : ∀ {l k}, (l, k) ∈ marksFrom (e.stubAt j) (e.stub s) → k < 2 ^ 32 →
      (frag.address l).toNat = k := by
    intro l k hl hk
    rw [address_of_stub ha hd hnum hs hl, UInt32.toNat_ofNat_of_lt' hk]
  unfold joinAt
  rw [hnum hs]
  refine ⟨hat (marks_stub.mpr (.inl ⟨?_, rfl⟩)) (by omega),
    hat (marks_stub.mpr (.inr (.inl ⟨?_, rfl⟩))) (by omega),
    hat (marks_stub.mpr (.inr (.inr ⟨?_, rfl⟩))) (by omega)⟩
  all_goals rw [hnum hs]

/-- What the handlers of a stub cover. -/
theorem coversAt_stub {j q : Nat} {s : Stop} (hs : e.stops[j]? = some s)
    (hin : ∀ h ∈ handlers, h.covers s.point.instr →
      e.graph.blockNumber h.target.toNat ∈ included) :
    coversAt ((e.joinHandlers s).map (LabelledHandler.toHandler frag.address)) q =
      if e.joinAt s ≤ q ∧ q < e.joinAt s + (e.joinCode s).length then
        (coversAt handlers s.point.instr).map
          (Cover.move fun t => (codes e.opening).length + e.offset included t)
      else [] := by
  obtain ⟨_, hstart, hstop⟩ := toNat_stub ha hd hfin hsize hnum hs
  unfold joinHandlers
  rw [coversAt_over, hstart, hstop]
  congr 1
  unfold coversAt
  rw [hd.guards, filter_map, map_map, map_map]
  have hfst : handlers.filter (·.covers s.point.instr) =
      ((handlers.zipIdx).filter fun p => p.1.covers s.point.instr).map Prod.fst := by
    conv_lhs => rw [← zipIdx_map_fst 0 handlers, filter_map]
    rfl
  rw [hfst, map_map]
  refine map_congr_left fun p hp => ?_
  obtain ⟨hp, hcov⟩ := mem_filter.mp hp
  have hmem : p.1 ∈ handlers := mem_of_getElem? (mem_zipIdx_iff_getElem?.mp hp)
  obtain ⟨T, hT, hTstart⟩ := hd.target_start p.1 hmem
  have hplace := ha.toNat_blockStart hd hfin hsize hT (hin p.1 hmem hcov)
  rw [hTstart] at hplace
  exact congrArg (fun n => (⟨p.1.cls, n, p.1.region, p.1.kind⟩ : Cover)) hplace

/-- **Only the taking of outcomes is covered by the handlers of stubs,** and it is covered by those
that covered the point. -/
theorem coversAt_stubs {q : Nat}
    (hin : ∀ s ∈ e.stops, ∀ h ∈ handlers, h.covers s.point.instr →
      e.graph.blockNumber h.target.toNat ∈ included) :
    (∀ (j : Nat) (s : Stop), e.stops[j]? = some s → e.joinAt s ≤ q →
      q < e.joinAt s + (e.joinCode s).length →
      coversAt ((e.stops.flatMap e.joinHandlers).map (LabelledHandler.toHandler frag.address)) q =
        (coversAt handlers s.point.instr).map
          (Cover.move fun t => (codes e.opening).length + e.offset included t)) ∧
    ((∀ s ∈ e.stops, q < e.joinAt s ∨ e.joinAt s + (e.joinCode s).length ≤ q) →
      coversAt ((e.stops.flatMap e.joinHandlers).map (LabelledHandler.toHandler frag.address)) q =
        []) := by
  have hrow : ∀ row ⊆ e.stops, coversAt
      ((row.flatMap e.joinHandlers).map (LabelledHandler.toHandler frag.address)) q =
      row.flatMap fun s =>
        coversAt ((e.joinHandlers s).map (LabelledHandler.toHandler frag.address)) q := by
    intro row hsub
    induction row with
    | nil => rfl
    | cons s row ih =>
      rw [flatMap_cons, map_append, coversAt_append, flatMap_cons,
        ih fun s hs => hsub (mem_cons_of_mem _ hs)]
  have hstub : ∀ (j : Nat) (s : Stop), e.stops[j]? = some s → _ := fun j s hs =>
    coversAt_stub (q := q) ha hd hfin hsize hnum hs (hin s (mem_of_getElem? hs))
  rw [hrow _ (Subset.refl _)]
  constructor
  · intro j s hs h1 h2
    rw [flatMap_eq_single hs, hstub j s hs, if_pos ⟨h1, h2⟩]
    intro k s' hs' hne
    rw [hstub k s' hs', if_neg]
    -- The stubs stand one behind the other.
    have hk := stubAt_succ hs'
    have hj := stubAt_succ hs
    have hlt : e.stubAt (k + 1) ≤ e.stubAt j ∨ e.stubAt (j + 1) ≤ e.stubAt k := by
      rcases Nat.lt_or_gt_of_ne hne with h | h
      · exact .inl (stubAt_mono h)
      · exact .inr (stubAt_mono h)
    unfold joinAt at *
    rw [hnum hs] at h1 h2
    rw [hnum hs']
    omega
  · intro hout
    rw [flatMap_eq_nil_iff]
    intro s hs
    obtain ⟨j, hj⟩ := mem_iff_getElem?.mp hs
    rw [hstub j s hj, if_neg]
    have := hout s hs
    omega

/-- Handlers of stubs cover nothing behind the code before the copied blocks. -/
theorem coversAt_joins {q : Nat} (hq : (codes e.opening).length ≤ q)
    (hin : ∀ s ∈ e.stops, ∀ h ∈ handlers, h.covers s.point.instr →
      e.graph.blockNumber h.target.toNat ∈ included) :
    coversAt ((e.stops.flatMap e.joinHandlers).map (LabelledHandler.toHandler frag.address)) q = [] := by
  refine (coversAt_stubs ha hd hfin hsize hnum hin).2 fun s hs => ?_
  have := joinAt_le hnum hs
  omega

end

/-- **What covers the code before the copied blocks:** the taking of an outcome has the handlers of
its point, and nothing else has any. -/
theorem coversAt_opening {included : List Nat} {machine : Option UInt32} {rest : List Stop}
    {handlers : List Handler}
    (ha : e.Arranged included machine e.opening rest (e.stops.flatMap e.joinHandlers) frag)
    (hd : e.graph.Divides e.body handlers splits)
    (hfin : frag.finish = .ok (is, hs)) (hsize : is.length < 2 ^ 32)
    (hnum : ∀ {k : Nat} {s : Stop}, e.stops[k]? = some s → s.number = k)
    (hin : ∀ s ∈ e.stops, ∀ h ∈ handlers, h.covers s.point.instr →
      e.graph.blockNumber h.target.toNat ∈ included) {q : Nat} :
    (∀ s ∈ e.stops, e.joinAt s ≤ q → q < e.joinAt s + (e.joinCode s).length →
      coversAt hs q = (coversAt handlers s.point.instr).map
        (Cover.move fun t => (codes e.opening).length + e.offset included t)) ∧
    (q < (codes e.opening).length →
      (∀ s ∈ e.stops, q < e.joinAt s ∨ e.joinAt s + (e.joinCode s).length ≤ q) →
      coversAt hs q = []) := by
  obtain ⟨hcovered, hother⟩ := coversAt_stubs (q := q) ha hd hfin hsize hnum hin
  constructor
  · intro s hs h1 h2
    obtain ⟨j, hj⟩ := mem_iff_getElem?.mp hs
    have hend := joinAt_le hnum hs
    rw [(ha.coversAt_split (i := 0) hd hfin hsize).1 (.inl (by omega))]
    exact hcovered j s hj h1 h2
  · intro hq hout
    rw [(ha.coversAt_split (i := 0) hd hfin hsize).1 (.inl hq)]
    exact hother hout

/-- Code that begins like a continuation, where instruction `i` has its copy at `pos i`. -/
structure Resumes (e : Emission) (is : List Instr) (hs : List Handler) (pos : Nat → Nat) : Prop where
  opening : Sits is 0 (e.moveCode ++
    [.load (e.home 1), .switch 1 (e.stops.map fun s => UInt32.ofNat (e.stubAt s.number)) 10] ++
      e.invalidCode)
  small : ∀ s ∈ e.stops, e.stubAt s.number < 2 ^ 32
  stub : ∀ s ∈ e.stops, Sits is (e.stubAt s.number) (e.restoreCode s ++
    (e.joinCode s ++ [.goto (UInt32.ofNat (pos (s.point.instr + 1)))]))
  joined : ∀ s ∈ e.stops, ∀ {q : Nat}, e.joinAt s ≤ q → q < e.joinAt s + (e.joinCode s).length →
    handlersAt hs q = (handlersAt e.function.handlers s.point.instr).map fun p => (p.1, pos p.2)
  uncovered : ∀ {q : Nat}, q < (codes e.opening).length →
    (∀ s ∈ e.stops, q < e.joinAt s ∨ e.joinAt s + (e.joinCode s).length ≤ q) → handlersAt hs q = []

/-- The block behind a point starts right behind it. -/
theorem isStart_behind {handlers : List Handler} {p : Point} {n : UInt32}
    (hd : e.graph.Divides e.body handlers splits)
    (hsplit : (p.instr : Int) ∈ splits) (hcall : e.body[p.instr]? = some (.invoke n)) :
    e.graph.IsStart (p.instr + 1) := by
  obtain ⟨B, hB, h1, h2⟩ := hd.exists_block (lt_of_getElem? hcall)
  have hstop := hd.split hsplit hB h1 h2
  have hlast : B.last = p.instr := by
    unfold Block.last
    omega
  rw [← hlast] at hcall ⊢
  exact hd.isStart_of_last hB hcall (mem_append_left _ (mem_singleton.mpr rfl))

/-- **The code of a continuation.** It begins like one, and then holds copies of the blocks that can
run after a resumption. -/
theorem continuation_code (h : e.continuation = .ok frag)
    (hd : e.graph.Divides e.body e.function.handlers splits)
    (hfin : frag.finish = .ok (is, hs)) (hsize : is.length < 2 ^ 32) (hn : e.Numbered)
    (hpoints : ∀ p ∈ e.plan.points, (p.instr : Int) ∈ splits ∧
      ∃ n, e.body[p.instr]? = some (.invoke n))
    (hbehind : ∀ p ∈ e.plan.points,
      e.graph.blockNumber (p.instr + 1) ∈ e.plan.segments.tail.flatten)
    (hresumed : ∀ p ∈ e.plan.points, ∀ h ∈ e.function.handlers, h.covers p.instr →
      e.graph.blockNumber h.target.toNat ∈ e.plan.segments.tail.flatten) :
    let pos i := (codes e.opening).length + e.offset e.plan.segments.tail.flatten i
    e.Copies e.plan.segments.tail.flatten (some (e.home 0)) is hs pos ∧ e.Resumes is hs pos := by
  have hnum : ∀ {k : Nat} {s : Stop}, e.stops[k]? = some s → s.number = k := hn.number
  have hstops : ∀ s ∈ e.stops, s.point ∈ e.plan.points := fun s hs =>
    mem_of_getElem? (hn.mem hs).2
  have ha := arranged_of_continuation h hn.nodup
  have hin : ∀ s ∈ e.stops, ∀ h ∈ e.function.handlers, h.covers s.point.instr →
      e.graph.blockNumber h.target.toNat ∈ e.plan.segments.tail.flatten :=
    fun s hs => hresumed s.point (hstops s hs)
  have hle := opening_le ha hd hfin
  dsimp only
  constructor
  · refine ha.copies hd hfin hsize (fun s hs hb => ?_) fun q hq => ?_
    · exact mem_filter.mpr ⟨hs, decide_eq_true hb⟩
    · exact coversAt_joins ha hd hfin hsize hnum hq hin
  · have hstubs : e.stops.map (fun s => frag.address (.stub s.number)) =
        e.stops.map fun s => UInt32.ofNat (e.stubAt s.number) := by
      refine map_congr_left fun s hs => ?_
      obtain ⟨j, hj⟩ := mem_iff_getElem?.mp hs
      rw [address_of_stub ha hd hnum hj (marks_stub.mpr (.inl ⟨rfl, rfl⟩)), hnum hj]
    have hopening := sits_opening ha hfin
    rw [hstubs, address_invalid ha hd] at hopening
    refine ⟨hopening, fun s hs => ?_, fun s hs => ?_, fun s hs {q} h1 h2 => ?_, fun {q} hq hout => ?_⟩
    · have := joinAt_le hnum hs
      unfold joinAt at this
      omega
    · obtain ⟨j, hj⟩ := mem_iff_getElem?.mp hs
      obtain ⟨hsplit, n, hcall⟩ := hpoints s.point (hstops s hs)
      obtain ⟨T, hT, hstart⟩ := isStart_behind hd hsplit hcall
      have hstub := sits_stub ha hfin hj
      rw [ha.address_blockStart hd hT (hbehind s.point (hstops s hs)), hstart] at hstub
      rw [hnum hj]
      exact hstub
    · exact handlersAt_move
        (fun t => (codes e.opening).length + e.offset e.plan.segments.tail.flatten t)
        ((coversAt_opening ha hd hfin hsize hnum hin).1 s hs h1 h2)
    · exact handlersAt_of_coversAt ((coversAt_opening ha hd hfin hsize hnum hin).2 hq hout)

/-- **The code of the function itself.** It holds copies of all blocks that can run. -/
theorem suspendable_code (h : e.suspendable = .ok frag)
    (hd : e.graph.Divides e.body e.function.handlers splits)
    (hfin : frag.finish = .ok (is, hs)) (hsize : is.length < 2 ^ 32) (hn : e.Numbered) :
    e.Copies e.plan.segments.flatten none is hs (e.offset e.plan.segments.flatten) := by
  have hcopies := (arranged_of_suspendable h hn.nodup).copies hd hfin hsize (fun s hs _ => hs)
    fun q _ => rfl
  have hzero : (fun i => (codes ([] : List (Item Place))).length + e.offset e.plan.segments.flatten i) =
      e.offset e.plan.segments.flatten := funext fun i => Nat.zero_add _
  rwa [hzero] at hcopies

end Emission

end Resumable
