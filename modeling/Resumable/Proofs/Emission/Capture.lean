import Resumable.Proofs.Emission.Copying
import Resumable.Proofs.Exec.Straight
import Resumable.Proofs.Live.Noninterference

/-!
# Capturing and putting back

Where an invocation suspends, straight code moves the values of the live positions into a record, and
where it is resumed, straight code moves them back. What comes back agrees with what was captured on
every live position; a stack slot that nobody reads gets a placeholder, and a local that nobody reads
gets nothing.
-/

namespace Resumable

open Activation List

/-- A captured position has a field. -/
theorem Point.exists_field {p : Point} {v : UInt32} (hv : v ∈ p.live) :
    ∃ k, p.field? v = some k ∧ p.live[k]? = some v := by
  obtain ⟨k, hk⟩ : ∃ k, p.field? v = some k := by
    unfold field?
    rw [← Option.isSome_iff_exists, findIdx?_isSome, any_eq_true]
    exact ⟨v, hv, decide_eq_true rfl⟩
  obtain ⟨hlt, heq, _⟩ := findIdx?_eq_some_iff_getElem.mp hk
  exact ⟨k, hk, by rw [getElem?_eq_getElem hlt, of_decide_eq_true heq]⟩

/-- A switch that counts from one takes the target at a place. -/
theorem Activation.switchTarget_ofNat {targets : List UInt32} {otherwise t : UInt32} {k : Nat}
    (hk : k + 1 < 2 ^ 63) (ht : targets[k]? = some t) :
    switchTarget 1 targets otherwise (Int64.ofNat (k + 1)) = t := by
  have hsub : Int64.ofNat (k + 1) - (1 : Int32).toInt64 = Int64.ofNat k := by
    rw [show (1 : Int32).toInt64 = Int64.ofNat 1 by decide, Int64.ofNat_add]
    simp
  have hint : (Int64.ofNat k).toInt = k := Int64.toInt_ofNat_of_lt (by omega)
  have hnat : (Int64.ofNat k).toNatClampNeg = k := by simp [Int64.toNatClampNeg, hint]
  have hpos : ¬Int64.ofNat k < 0 := by
    rw [Int64.lt_iff_toInt_lt, hint]
    simp
  unfold switchTarget
  dsimp only
  rw [hsub, if_neg hpos, hnat, ht]
  rfl

/-- What a point captures can be put into a record and taken out of it by code with locals of 32
bits. -/
structure Point.Shaped (p : Point) (locals : Nat) : Prop where
  below : ∀ {v}, v ∈ p.live → v.toNat < locals + p.depth
  fields : p.live.length = p.fields.length
  ordered : p.live.Pairwise (· < ·)
  few : p.live.length ≤ 2 ^ 32

theorem Point.Fits.shaped {p : Point} {l : Liveness} {live : UInt32 → Prop} {F : Frame}
    (h : p.Fits l live F) : p.Shaped l.locals :=
  ⟨fun hv => (h.mem_live.mp hv).2.1, h.fields.length_eq, h.ordered, h.few⟩

/-- The fields are the values of the captured positions, in their order. -/
def Point.Selects (p : Point) (cells fields : List Value) : Prop :=
  List.Forall₂ (fun v x => item? cells v = some x) p.live fields

/-- Values that were captured from one activation and are found in another are the same. -/
theorem Point.Selects.item?_eq {p : Point} {cells cells' fields : List Value} {v : UInt32}
    (h : p.Selects cells fields) (h' : p.Selects cells' fields) (hv : v ∈ p.live) :
    item? cells v = item? cells' v := by
  obtain ⟨k, hk⟩ := mem_iff_getElem?.mp hv
  obtain ⟨x, hx, hvx⟩ := forall₂_getElem? h.flip hk
  obtain ⟨x', hx', hvx'⟩ := forall₂_getElem? h'.flip hk
  rw [hx] at hx'
  cases hx'
  rw [hvx, hvx']

namespace Emission

variable {e : Emission} {u : CodeUnit} {l : Liveness} {ctx : TypingContext} {sites : List Nat}
  {after : Nat → UInt32 → Prop} {a : Activation} {s : Stop} {ls st : List Value}

/-- What the code of a state machine rests on where it captures and puts back. -/
structure Spills (e : Emission) (u : CodeUnit) : Prop where
  prepared : e.Prepared u
  roomy : e.Roomy
  shaped : ∀ {s}, s ∈ e.stops → s.point.Shaped e.plan.locals
  index : ∀ {s}, s ∈ e.stops → s.point.id = s.number + 1

theorem Planned.spills (hp : e.Planned u l ctx sites after) : e.Spills u where
  prepared := hp.prepared
  roomy := hp.roomy
  shaped hs := by
    obtain ⟨_, _, _, F, hF⟩ := hp.point hs
    exact hp.plan.locals ▸ hF.shaped
  index hs := (hp.point hs).2.1

theorem Spills.depth_le (hp : e.Spills u) (hs : s ∈ e.stops) : s.point.depth ≤ e.deepest :=
  depth_le_deepest (mem_of_getElem? (hp.prepared.mem hs).2.1)

/-! ## Capturing -/

/-- The values that a point captures. -/
def taken (p : Point) (a : Activation) : List Value :=
  p.live.map fun v => (a.valueAt v).getD .null

/-- Stores move the topmost values to the locals from a place on, the lowest one first. -/
theorem carries_stores {slot : Nat → UInt32} {base d : Nat} {vs : List Value}
    (hslot : ∀ k < d, (slot k).toNat = base + k) (hroom : base + d ≤ ls.length)
    (hlen : vs.length = d) (st : List Value) :
    ∃ ls', Carries u ((range d).reverse.map fun k => .store (slot k)) ls (vs ++ st) ls' st ∧
      ls'.length = ls.length ∧ (∀ j, j < base ∨ base + d ≤ j → ls'[j]? = ls[j]?) ∧
      ∀ k < d, ls'[base + k]? = vs.reverse[k]? := by
  induction d generalizing vs ls with
  | zero =>
    obtain rfl := length_eq_zero_iff.mp hlen
    exact ⟨ls, .nil ls st, rfl, fun _ _ => rfl, fun k hk => absurd hk (Nat.not_lt_zero k)⟩
  | succ d ih =>
    obtain ⟨v, vs, rfl⟩ := exists_cons_of_length_eq_add_one hlen
    have hd : (slot d).toNat = base + d := hslot d (Nat.lt_succ_self d)
    have hvs : vs.length = d := Nat.succ.inj hlen
    obtain ⟨ls', hc, hl, hother, hput⟩ := ih (fun k hk => hslot k (Nat.lt_succ_of_lt hk))
      (show base + d ≤ (ls.set (slot d).toNat v).length by rw [length_set]; omega) hvs
    refine ⟨ls', ?_, by rw [hl, length_set], ?_, ?_⟩
    · rw [range_succ, reverse_append]
      exact .cons (.store _ _ _ _) hc
    · intro j hj
      rw [hother j (by omega), getElem?_set_ne (by omega)]
    · intro k hk
      rw [reverse_cons]
      by_cases hkd : k < d
      · rw [hput k hkd, getElem?_append_left (by rw [length_reverse]; omega)]
      · obtain rfl : k = d := by omega
        rw [hother (base + k) (by omega), hd, getElem?_set_self (by omega),
          getElem?_append_right (by rw [length_reverse]; omega)]
        simp [hvs]

/-- The code that captures what is live at a point and puts the arguments of the suspension on the
stack. -/
def captureCode (e : Emission) (machine : Option UInt32) (s : Stop) : List Instr :=
  [.store e.scratch] ++ ((List.range s.point.depth).reverse.map (fun k => .store (e.spill k)) ++
    ([machine.elim .null .load, .load e.scratch] ++
      ((s.point.live.map e.captured).map .load ++
        [.newrec s.layout, .iconst (Int64.ofNat s.point.id), .sconst e.continuationName])))

theorem slowCode_eq {machine : Option UInt32} :
    e.slowCode machine s = e.captureCode machine s ++ (.invoke e.suspend ::
      ((if e.function.result.className = ClassName.future then [] else [.checkcast e.resultClass]) ++
        [.retval])) := by
  simp [slowCode, captureCode, append_assoc, Function.comp_def]

/-- Code that captures is given locals for what it spills. -/
theorem Roomy.room_of_stores (hroom : e.Roomy) (hdeep : s.point.depth ≤ e.deepest)
    (machine : Option UInt32) {count : UInt32}
    (h : ∀ n, .store n ∈ e.slowCode machine s → n.toNat + 1 < 2 ^ 32 → n < count) :
    e.plan.locals + 1 + s.point.depth ≤ count.toNat := by
  have hscratch := hroom.toNat_scratch
  have hbound : e.plan.locals + e.deepest + 5 < 2 ^ 32 := hroom
  cases hd : s.point.depth with
  | zero =>
    have := UInt32.lt_iff_toNat_lt.mp (h e.scratch (by simp [slowCode]) (by omega))
    omega
  | succ d =>
    have hspill := hroom.toNat_spill (show d ≤ e.deepest by omega)
    have hmem : .store (e.spill d) ∈ e.slowCode machine s := by
      rw [slowCode_eq]
      exact mem_append_left _ (mem_append_right _ (mem_append_left _
        (mem_map.mpr ⟨d, by simp [hd], rfl⟩)))
    have := UInt32.lt_iff_toNat_lt.mp (h _ hmem (by omega))
    omega

section

variable (hp : e.Spills u)

include hp

/-- A point captures the values of its positions. -/
theorem Spills.selects_taken (hs : s ∈ e.stops) (hlocals : a.locals.length = e.plan.locals)
    (hdepth : a.stack.length = s.point.depth) : s.point.Selects a.cells (taken s.point a) := by
  unfold Point.Selects taken
  rw [forall₂_map_right_iff, forall₂_same]
  intro v hv
  have hlt := (hp.shaped hs).below hv
  obtain ⟨x, hx⟩ : ∃ x, a.valueAt v = some x := by
    refine ⟨_, getElem?_eq_getElem ?_⟩
    unfold cells
    rw [length_append, length_reverse]
    omega
  rw [hx]
  exact hx

/-- **What a point captures.** -/
theorem Spills.carries_capture {machine : Option UInt32} (fut : Value) {mv : Value} (hs : s ∈ e.stops)
    (hlocals : a.locals.length = e.plan.locals) (hdepth : a.stack.length = s.point.depth)
    (hls : a.locals <+: ls) (hroom : e.plan.locals + 1 + s.point.depth ≤ ls.length)
    (hm : machine.elim (some .null) (item? ls) = some mv)
    (hbehind : ∀ n, machine = some n → e.plan.locals + 1 + e.deepest ≤ n.toNat) :
    ∃ ls', Carries u (e.captureCode machine s) ls (fut :: a.stack) ls'
      [.str e.plan.continuation, .int (Int64.ofNat s.point.id),
        .record s.layout (taken s.point a), fut, mv] := by
  obtain ⟨_, _, htab⟩ := hp.prepared.mem hs
  have hdeep := hp.depth_le hs
  have hscratch := hp.roomy.toNat_scratch
  have hspill : ∀ k < s.point.depth, (e.spill k).toNat = e.plan.locals + 1 + k :=
    fun k hk => hp.roomy.toNat_spill (by omega)
  obtain ⟨ls', hc, hlen, hother, hput⟩ := carries_stores (u := u) hspill
    (show _ ≤ (ls.set e.scratch.toNat fut).length by rw [length_set]; exact hroom) hdepth []
  rw [append_nil] at hc
  have hfut : item? ls' e.scratch = some fut := by
    unfold item?
    rw [hother _ (by omega), getElem?_set_self (by omega)]
  have hselects := hp.selects_taken hs hlocals hdepth
  -- A captured local was not touched, and a captured stack slot was spilled.
  have hvalue : ∀ v ∈ s.point.live, item? ls' (e.captured v) = item? a.cells v := by
    intro v hv
    have hlt := (hp.shaped hs).below hv
    have hcap := hp.roomy.toNat_captured (show v.toNat ≤ e.plan.locals + e.deepest by omega)
    unfold item? cells
    rw [hcap]
    split
    next hlocal =>
      obtain ⟨more, rfl⟩ := hls
      rw [hother _ (by omega), getElem?_set_ne (by omega),
        getElem?_append_left (by omega), getElem?_append_left (by omega)]
    next hslot =>
      obtain ⟨j, hj⟩ : ∃ j, v.toNat = e.plan.locals + j := ⟨v.toNat - e.plan.locals, by omega⟩
      rw [show v.toNat + 1 = e.plan.locals + 1 + j by omega, hput j (by omega),
        getElem?_append_right (by omega), show v.toNat - a.locals.length = j by omega]
  have hloads : Forall₂ (fun n v => item? ls' n = some v) (s.point.live.map e.captured)
      (taken s.point a) := by
    unfold Point.Selects taken at hselects
    unfold taken
    rw [forall₂_map_right_iff, forall₂_same] at hselects
    rw [forall₂_map_left_iff, forall₂_map_right_iff, forall₂_same]
    exact fun v hv => (hvalue v hv).trans (hselects v hv)
  have hrecord : (taken s.point a).length = s.point.fields.length :=
    (length_map _).trans (hp.shaped hs).fields
  have hmachine : (machine.elim Instr.null .load).Shifts u ls' [] ls' [mv] := by
    cases machine with
    | none =>
      cases hm
      exact .null _ _
    | some n =>
      have hn := hbehind n rfl
      refine .load ?_
      rw [← hm]
      show ls'[n.toNat]? = ls[n.toNat]?
      rw [hother _ (by omega), getElem?_set_ne (by omega)]
  exact ⟨ls', .cons (.store _ _ _ _) (hc.append (.cons hmachine (.cons (.load hfut)
    ((carries_loads hloads _).append (.cons (.newrec htab.layout hrecord _ _)
      (.cons (.iconst _ _ _) (.cons (.sconst hp.prepared.continuationName _ _) (.nil _ _))))))))⟩

end

/-! ## Putting back -/

theorem carries_move {n h : UInt32} {v : Value} (hv : item? ls n = some v) :
    Carries u [.load n, .store h] ls st (ls.set h.toNat v) st :=
  .cons (.load hv) (.cons (.store _ _ _ _) (.nil _ _))

/-- The parameters of a continuation are moved behind the locals of the function. The last one goes
first, so none is overwritten before it has gone. -/
theorem Roomy.carries_params (hroom : e.Roomy) {x₀ x₁ x₂ x₃ : Value} {more : List Value}
    (hls : e.plan.locals + e.deepest + 5 ≤ (x₀ :: x₁ :: x₂ :: x₃ :: more).length) :
    ∃ ls', Carries u e.moveCode (x₀ :: x₁ :: x₂ :: x₃ :: more) [] ls' [] ∧
      ls'.length = (x₀ :: x₁ :: x₂ :: x₃ :: more).length ∧
      item? ls' (e.home 0) = some x₀ ∧ item? ls' (e.home 1) = some x₁ ∧
      item? ls' (e.home 2) = some x₂ ∧ item? ls' (e.home 3) = some x₃ := by
  have h0 := hroom.toNat_home (k := 0) (by omega)
  have h1 := hroom.toNat_home (k := 1) (by omega)
  have h2 := hroom.toNat_home (k := 2) (by omega)
  have h3 := hroom.toNat_home (k := 3) (by omega)
  generalize hrow : x₀ :: x₁ :: x₂ :: x₃ :: more = row at hls ⊢
  have g0 : row[0]? = some x₀ := by rw [← hrow]; rfl
  have g1 : row[1]? = some x₁ := by rw [← hrow]; rfl
  have g2 : row[2]? = some x₂ := by rw [← hrow]; rfl
  have g3 : row[3]? = some x₃ := by rw [← hrow]; rfl
  refine ⟨(((row.set (e.home 3).toNat x₃).set (e.home 2).toNat x₂).set (e.home 1).toNat x₁).set
    (e.home 0).toNat x₀, ?_, by simp only [length_set], ?_, ?_, ?_, ?_⟩
  · refine (carries_move (n := 3) g3).append ((carries_move (n := 2) ?_).append
      ((carries_move (n := 1) ?_).append (carries_move (n := 0) ?_)))
    · show (List.set _ _ _)[2]? = _
      rw [getElem?_set_ne (by omega), g2]
    · show (List.set _ _ _)[1]? = _
      rw [getElem?_set_ne (by omega), getElem?_set_ne (by omega), g1]
    · show (List.set _ _ _)[0]? = _
      rw [getElem?_set_ne (by omega), getElem?_set_ne (by omega),
        getElem?_set_ne (by omega), g0]
  · exact getElem?_set_self (by simp only [length_set]; omega)
  · unfold item?
    rw [getElem?_set_ne (by omega), getElem?_set_self (by simp only [length_set]; omega)]
  · unfold item?
    rw [getElem?_set_ne (by omega), getElem?_set_ne (by omega),
      getElem?_set_self (by simp only [length_set]; omega)]
  · unfold item?
    rw [getElem?_set_ne (by omega), getElem?_set_ne (by omega),
      getElem?_set_ne (by omega), getElem?_set_self (by omega)]

/-- Captured values are put back into their locals. -/
theorem carries_restoreLocals {layout home : UInt32} {n : Nat} {fs : List Value}
    (row : List (UInt32 × Nat)) (hhome : n ≤ home.toNat)
    (hrec : item? ls home = some (.record layout fs))
    (hrow : ∀ q ∈ row, q.2 < fs.length ∧ q.2 < 2 ^ 32) (hroom : n ≤ ls.length)
    (hdistinct : row.Pairwise fun q q' => q.1 ≠ q'.1) :
    ∃ ls', Carries u (row.flatMap fun q => if q.1.toNat < n then
        [.load home, .recget layout (UInt32.ofNat q.2), .store q.1] else []) ls st ls' st ∧
      ls'.length = ls.length ∧
      (∀ j, n ≤ j ∨ (∀ q ∈ row, q.1.toNat ≠ j) → ls'[j]? = ls[j]?) ∧
      ∀ q ∈ row, q.1.toNat < n → ls'[q.1.toNat]? = fs[q.2]? := by
  induction row generalizing ls with
  | nil => exact ⟨ls, .nil ls st, rfl, fun _ _ => rfl, fun q hq => absurd hq not_mem_nil⟩
  | cons q row ih =>
    obtain ⟨hne, hdistinct⟩ := pairwise_cons.mp hdistinct
    have hrow' := fun q' (h : q' ∈ row) => hrow q' (mem_cons_of_mem _ h)
    rw [flatMap_cons]
    by_cases hlt : q.1.toNat < n
    · obtain ⟨hk, hsmall⟩ := hrow q mem_cons_self
      have hfield : item? fs (UInt32.ofNat q.2) = some fs[q.2] := by
        unfold item?
        rw [UInt32.toNat_ofNat_of_lt' hsmall]
        exact getElem?_eq_getElem hk
      have hrec' : item? (ls.set q.1.toNat fs[q.2]) home = some (.record layout fs) := by
        rw [← hrec]
        exact getElem?_set_ne (by omega)
      obtain ⟨ls', hc, hlen, hother, hput⟩ := ih hrec' hrow' (by rw [length_set]; exact hroom)
        hdistinct
      refine ⟨ls', ?_, by rw [hlen, length_set], ?_, ?_⟩
      · rw [if_pos hlt]
        exact .append (.cons (.load hrec) (.cons (.recget hfield _ _) (.cons (.store _ _ _ _)
          (.nil _ _)))) hc
      · intro j hj
        rw [hother j (hj.imp id fun h q' hq' => h q' (mem_cons_of_mem _ hq'))]
        refine getElem?_set_ne ?_
        rcases hj with hj | hj
        · omega
        · exact hj q mem_cons_self
      · intro q' hq' hlt'
        rcases mem_cons.mp hq' with rfl | hq'
        · have hlast : ∀ q ∈ row, q.1.toNat ≠ q'.1.toNat := fun q hq heq =>
            hne q hq (UInt32.toNat_inj.mp heq.symm)
          rw [hother _ (.inr hlast), getElem?_set_self (by omega), getElem?_eq_getElem hk]
        · exact hput q' hq' hlt'
    · obtain ⟨ls', hc, hlen, hother, hput⟩ := ih hrec hrow' hroom hdistinct
      refine ⟨ls', ?_, hlen, ?_, ?_⟩
      · rw [if_neg hlt]
        exact hc
      · exact fun j hj => hother j (hj.imp id fun h q' hq' => h q' (mem_cons_of_mem _ hq'))
      · intro q' hq' hlt'
        rcases mem_cons.mp hq' with rfl | hq'
        · exact absurd hlt' hlt
        · exact hput q' hq' hlt'

/-- Captured values are put back onto the stack, and placeholders are put where nothing was
captured. -/
theorem carries_restoreStack {layout home : UInt32} {fs : List Value} (row : List (Ty × Nat))
    {field : Nat → Option Nat} (hrec : item? ls home = some (.record layout fs))
    (hfield : ∀ j k, field j = some k → k < fs.length ∧ k < 2 ^ 32) (st : List Value) :
    ∃ vs : List Value, Carries u (row.flatMap fun q => match field q.2 with
        | some k => [.load home, .recget layout (UInt32.ofNat k)]
        | none => if q.1 = .int then [.iconst 0] else [.null]) ls st ls (vs.reverse ++ st) ∧
      vs.length = row.length ∧
      ∀ (i : Nat) (q : Ty × Nat), row[i]? = some q → vs[i]? = match field q.2 with
        | some k => fs[k]?
        | none => some (if q.1 = .int then .int 0 else .null) := by
  induction row generalizing st with
  | nil => exact ⟨[], .nil ls st, rfl, fun i q h => by cases h⟩
  | cons q row ih =>
    obtain ⟨v, hv, hread⟩ : ∃ v, Carries u (match field q.2 with
        | some k => [.load home, .recget layout (UInt32.ofNat k)]
        | none => if q.1 = .int then [.iconst 0] else [.null]) ls st ls (v :: st) ∧
        some v = match field q.2 with
          | some k => fs[k]?
          | none => some (if q.1 = .int then .int 0 else .null) := by
      cases hk : field q.2 with
      | some k =>
        obtain ⟨hlt, hsmall⟩ := hfield _ _ hk
        refine ⟨fs[k], .cons (.load hrec) (.cons (.recget ?_ _ _) (.nil _ _)), ?_⟩
        · unfold item?
          rw [UInt32.toNat_ofNat_of_lt' hsmall]
          exact getElem?_eq_getElem hlt
        · exact (getElem?_eq_getElem hlt).symm
      | none =>
        by_cases hint : q.1 = .int
        · exact ⟨.int 0, by simp only [if_pos hint]; exact (Instr.Shifts.iconst _ _ _).carries,
            by simp only [if_pos hint]⟩
        · exact ⟨.null, by simp only [if_neg hint]; exact (Instr.Shifts.null _ _).carries,
            by simp only [if_neg hint]⟩
    obtain ⟨vs, hc, hlen, hvs⟩ := ih (v :: st)
    refine ⟨v :: vs, ?_, congrArg Nat.succ hlen, ?_⟩
    · rw [flatMap_cons, reverse_cons, append_assoc]
      exact hv.append hc
    · intro i q' hi
      cases i with
      | zero =>
        cases hi
        exact hread
      | succ i => exact hvs i q' hi

/-- **A record is put back.** Captured locals and captured stack slots get the fields of the record,
and the other stack slots get placeholders. -/
theorem Spills.carries_restore (hp : e.Spills u) (hs : s ∈ e.stops) {fs : List Value}
    (hfs : s.point.live.length = fs.length)
    (hrec : item? ls (e.home 2) = some (.record s.layout fs))
    (hroom : e.plan.locals + e.deepest + 5 ≤ ls.length) :
    ∃ ls' st', Carries u (e.restoreCode s) ls [] ls' st' ∧ ls'.length = ls.length ∧
      st'.length = s.point.depth ∧ (∀ j, e.plan.locals ≤ j → ls'[j]? = ls[j]?) ∧
      s.point.Selects (ls'.take e.plan.locals ++ st'.reverse) fs ∧
      ∀ {j : Nat} {t : Ty}, s.point.stack[j]? = some t →
        UInt32.ofNat (e.plan.locals + j) ∉ s.point.live →
        st'.reverse[j]? = some (if t = .int then .int 0 else .null) := by
  have hshaped := hp.shaped hs
  have hhome := hp.roomy.toNat_home (k := 2) (by omega)
  have hfew : ∀ k, k < s.point.live.length → k < fs.length ∧ k < 2 ^ 32 :=
    fun k hk => ⟨hfs ▸ hk, Nat.lt_of_lt_of_le hk hshaped.few⟩
  -- The locals.
  have hnodup : s.point.live.Nodup := hshaped.ordered.imp fun h => UInt32.ne_of_lt h
  have hdistinct : s.point.live.zipIdx.Pairwise fun q q' => q.1 ≠ q'.1 := by
    rw [← zipIdx_map_fst 0 s.point.live] at hnodup
    exact pairwise_map.mp hnodup
  obtain ⟨ls', hc, hlen, hother, hput⟩ := carries_restoreLocals (u := u)
    s.point.live.zipIdx (n := e.plan.locals) (by omega) hrec
    (fun q hq => hfew _
      (List.getElem?_eq_some_iff.mp (mk_mem_zipIdx_iff_getElem?.mp hq)).1) (by omega) hdistinct
  -- The stack.
  have hrec' : item? ls' (e.home 2) = some (.record s.layout fs) := by
    rw [← hrec]
    exact hother _ (.inl (by omega))
  obtain ⟨vs, hc', hlen', hvs⟩ := carries_restoreStack (u := u) s.point.stack.zipIdx hrec'
    (fun j k (hk : s.point.field? (UInt32.ofNat (e.plan.locals + j)) = some k) =>
      hfew _ (findIdx?_eq_some_iff_getElem.mp hk).1) []
  rw [append_nil] at hc'
  have hvlen : vs.length = s.point.depth := by
    rw [hlen', length_zipIdx]
    rfl
  have hslot {j : Nat} {t : Ty} (hj : s.point.stack[j]? = some t) :
      vs[j]? = match s.point.field? (UInt32.ofNat (e.plan.locals + j)) with
        | some k => fs[k]?
        | none => some (if t = .int then .int 0 else .null) :=
    hvs j (t, j) (by rw [getElem?_zipIdx, hj]; simp)
  refine ⟨ls', vs.reverse, hc.append hc', hlen, by rw [length_reverse, hvlen],
    fun j hj => hother j (.inl hj), ?_, fun {j t} hj hv => ?_⟩
  · rw [reverse_reverse]
    refine forall₂_iff_get.mpr ⟨hfs, fun k hk hk' => ?_⟩
    have hmem : s.point.live.get ⟨k, hk⟩ ∈ s.point.live := get_mem ..
    generalize hv : s.point.live.get ⟨k, hk⟩ = v at hmem
    have hv : s.point.live[k]? = some v := by rw [getElem?_eq_getElem hk, ← hv]; rfl
    have hbelow := hshaped.below hmem
    show (ls'.take e.plan.locals ++ vs)[v.toNat]? = some fs[k]
    rw [← getElem?_eq_getElem hk']
    by_cases hlocal : v.toNat < e.plan.locals
    · rw [getElem?_append_left (by rw [length_take]; omega),
        getElem?_take_of_lt hlocal]
      exact hput (v, k) (mk_mem_zipIdx_iff_getElem?.mpr hv) hlocal
    · obtain ⟨j, hj⟩ : ∃ j, v.toNat = e.plan.locals + j := ⟨v.toNat - e.plan.locals, by omega⟩
      have hjlt : j < s.point.stack.length := by
        have : s.point.depth = s.point.stack.length := rfl
        omega
      obtain ⟨k', hfield, hat⟩ := Point.exists_field hmem
      obtain rfl : k' = k := (getElem?_inj (lt_of_getElem? hat) hnodup).mp
        (hat.trans hv.symm)
      rw [getElem?_append_right (by rw [length_take]; omega),
        length_take, show v.toNat - min e.plan.locals ls'.length = j by omega,
        hslot (getElem?_eq_getElem hjlt), ← hj, UInt32.ofNat_toNat, hfield]
  · have hnone : s.point.field? (UInt32.ofNat (e.plan.locals + j)) = none := by
      unfold Point.field?
      rw [findIdx?_eq_none_iff]
      intro v hv'
      simp only [decide_eq_false_iff_not]
      rintro rfl
      exact hv hv'
    rw [reverse_reverse, hslot hj, hnone]

/-- **What was captured comes back.** The stack and the first locals agree with what they were when a
point captured on every position that is live after it, if none of these was left out. -/
theorem valueAt_eq_of_selects (hp : e.Spills u) (hs : s ∈ e.stops)
    (hlocals : a.locals.length = e.plan.locals) (hdepth : a.stack.length = s.point.depth)
    (hls : e.plan.locals ≤ ls.length) (hst : st.length = s.point.depth)
    (hback : s.point.Selects (ls.take e.plan.locals ++ st.reverse) (taken s.point a)) {v : UInt32}
    (hv : v.toNat < e.plan.locals + s.point.depth → v ∈ s.point.live) :
    a.valueAt v = valueAt { a with locals := ls.take e.plan.locals, stack := st } v := by
  by_cases hlt : v.toNat < e.plan.locals + s.point.depth
  · exact (hp.selects_taken hs hlocals hdepth).item?_eq hback (hv hlt)
  · have htake : (ls.take e.plan.locals).length = e.plan.locals := by
      rw [length_take]
      omega
    unfold valueAt cells
    dsimp only
    rw [getElem?_eq_none (by rw [length_append, length_reverse]; omega),
      getElem?_eq_none (by rw [length_append, length_reverse]; omega)]

/-! ## Activations that capture and put back -/

section

variable {w : Surroundings} {b : Activation} {c : Body} {pos : Nat → Nat}

/-- **An activation at the code that captures comes to the call that hands over.** -/
theorem Spills.glides_suspend (hp : e.Spills w.unit) {machine : Option UInt32} {fut mv : Value}
    (hs : s ∈ e.stops) (hlocals : a.locals.length = e.plan.locals)
    (hdepth : a.stack.length = s.point.depth) (hls : a.locals <+: b.locals)
    (hst : b.stack = fut :: a.stack) (hroom : e.plan.locals + 1 + s.point.depth ≤ b.locals.length)
    (hm : machine.elim (some .null) (item? b.locals) = some mv)
    (hbehind : ∀ n, machine = some n → e.plan.locals + 1 + e.deepest ≤ n.toNat)
    (hsits : Sits b.body.code b.pc (e.slowCode machine s)) :
    ∃ ls pc, b.pc ≤ pc ∧ b.Glides w ⟨b.body, ls, [.str e.plan.continuation,
        .int (Int64.ofNat s.point.id), .record s.layout (taken s.point a), fut, mv], pc⟩ ∧
      b.body.code[pc]? = some (.invoke e.suspend) ∧
      Sits b.body.code (pc + 1) ((if e.function.result.className = ClassName.future then []
        else [.checkcast e.resultClass]) ++ [.retval]) := by
  obtain ⟨ls, hcarries⟩ := hp.carries_capture fut hs hlocals hdepth hls hroom hm hbehind
  rw [← hst] at hcarries
  rw [slowCode_eq, sits_append_iff] at hsits
  obtain ⟨hcall, hrest⟩ := sits_cons_iff.mp hsits.2
  exact ⟨ls, _, Nat.le_add_right _ _, glides_row hsits.1 hcarries, hcall, hrest⟩

/-- Every stub takes some place. -/
theorem le_stubAt {k : Nat} (hk : k ≤ e.stops.length) : k ≤ e.stubAt k := by
  induction k with
  | zero => exact Nat.zero_le _
  | succ k ih =>
    have := ih (Nat.le_of_succ_le hk)
    rw [stubAt_succ (getElem?_eq_getElem hk)]
    omega

variable (hr : e.Resumes c.code c.func.handlers pos)
  (hroom : e.plan.locals + e.deepest + 5 ≤ c.func.maxLocals.toNat)

include hr hroom

/-- A continuation comes to the choice of a stub, with its parameters out of the way. -/
theorem Resumes.glides_dispatch (hroomy : e.Roomy) (x₀ x₁ x₂ x₃ : Value) :
    ∃ ls : List Value, (start c [x₀, x₁, x₂, x₃]).Glides w ⟨c, ls, [x₁], 9⟩ ∧
      ls.length = c.func.maxLocals.toNat ∧ item? ls (e.home 0) = some x₀ ∧
      item? ls (e.home 2) = some x₂ ∧ item? ls (e.home 3) = some x₃ := by
  let more := replicate (c.func.maxLocals.toNat - 4) Value.null
  have hlen : (x₀ :: x₁ :: x₂ :: x₃ :: more).length = c.func.maxLocals.toNat := by
    simp only [more, length_cons, length_replicate]
    omega
  have hstart : (start c [x₀, x₁, x₂, x₃]).locals = x₀ :: x₁ :: x₂ :: x₃ :: more :=
    take_of_length_le (Nat.le_of_eq hlen)
  obtain ⟨ls, hcarries, hlen', h0, h1, h2, h3⟩ := hroomy.carries_params (u := w.unit)
    (Nat.le_trans hroom (Nat.le_of_eq hlen.symm))
  rw [← hstart] at hcarries
  obtain ⟨hmove, hdispatch⟩ := sits_append_iff.mp (sits_append_iff.mp hr.opening).1
  obtain ⟨hload, -⟩ := sits_cons_iff.mp hdispatch
  refine ⟨ls, ?_, hlen'.trans hlen, h0, h2, h3⟩
  exact (glides_row (a := .start c _) hmove hcarries).trans
    (.single (step_load _ hload h1))

omit hroom in
theorem Resumes.switch : c.code[9]? =
    some (.switch 1 (e.stops.map fun s => UInt32.ofNat (e.stubAt s.number)) 10) := by
  obtain ⟨-, hdispatch⟩ := sits_append_iff.mp (sits_append_iff.mp hr.opening).1
  exact (sits_cons_iff.mp (sits_cons_iff.mp hdispatch).2).1

/-- A continuation goes to the stub of the resumption index. -/
theorem Resumes.glides_stub (hp : e.Spills w.unit) (hs : s ∈ e.stops) (x₀ x₂ x₃ : Value) :
    ∃ ls : List Value,
      (start c [x₀, .int (Int64.ofNat s.point.id), x₂, x₃]).Glides w
        ⟨c, ls, [], e.stubAt s.number⟩ ∧
      ls.length = c.func.maxLocals.toNat ∧ item? ls (e.home 0) = some x₀ ∧
      item? ls (e.home 2) = some x₂ ∧ item? ls (e.home 3) = some x₃ := by
  obtain ⟨ls, hglides, hrest⟩ := hr.glides_dispatch hroom hp.roomy x₀
    (.int (Int64.ofNat s.point.id)) x₂ x₃
  refine ⟨ls, hglides.trans (.single ?_), hrest⟩
  have hsmall := hr.small s hs
  have hnum := (hp.prepared.mem hs).1
  have htarget : switchTarget 1 (e.stops.map fun s => UInt32.ofNat (e.stubAt s.number)) 10
      (Int64.ofNat s.point.id) = UInt32.ofNat (e.stubAt s.number) := by
    have hnumber := le_stubAt (Nat.le_of_lt (lt_of_getElem? hnum))
    rw [hp.index hs]
    exact switchTarget_ofNat (by omega) (by rw [getElem?_map, hnum]; rfl)
  rw [step_operate (t := [.int (Int64.ofNat s.point.id)]) _ hr.switch rfl rfl rfl rfl]
  show Step.next ⟨_, _, _, (switchTarget 1 _ 10 (Int64.ofNat s.point.id)).toNat⟩ = _
  rw [htarget, UInt32.toNat_ofNat_of_lt' hsmall]
  rfl

/-- **A continuation comes to the taking of the outcome,** with a record back in its place. -/
theorem Resumes.glides_join (hp : e.Spills w.unit) (hs : s ∈ e.stops) (fs : List Value)
    (hfs : s.point.live.length = fs.length) (x₀ x₃ : Value) :
    ∃ ls st, (start c [x₀, .int (Int64.ofNat s.point.id), .record s.layout fs, x₃]).Glides w
        ⟨c, ls, x₃ :: st, e.joinAt s + 1⟩ ∧
      ls.length = c.func.maxLocals.toNat ∧ item? ls (e.home 0) = some x₀ ∧
      st.length = s.point.depth ∧ s.point.Selects (ls.take e.plan.locals ++ st.reverse) fs ∧
      ∀ {j : Nat} {t : Ty}, s.point.stack[j]? = some t →
        UInt32.ofNat (e.plan.locals + j) ∉ s.point.live →
        st.reverse[j]? = some (if t = .int then .int 0 else .null) := by
  obtain ⟨ls, hglides, hlen, h0, h2, h3⟩ := hr.glides_stub hroom hp hs x₀ (.record s.layout fs) x₃
  obtain ⟨ls', st', hcarries, hlen', hheight, hother, hback, hplace⟩ := hp.carries_restore hs hfs h2
    (by rw [hlen]; exact hroom)
  have hkept {k : Nat} {x : Value} (hk : k ≤ 3) (hx : item? ls (e.home k) = some x) :
      item? ls' (e.home k) = some x := by
    rw [← hx]
    exact hother _ (by rw [hp.roomy.toNat_home hk]; omega)
  obtain ⟨hrestore, hrest⟩ := sits_append_iff.mp (hr.stub s hs)
  obtain ⟨hload, -⟩ := sits_cons_iff.mp (sits_append_iff.mp hrest).1
  refine ⟨ls', st', ?_, hlen'.trans hlen, hkept (Nat.zero_le 3) h0, hheight, hback, hplace⟩
  exact hglides.trans ((glides_row (a := ⟨c, ls, [], _⟩) hrestore hcarries).trans
    (.single (step_load _ hload (hkept (Nat.le_refl 3) h3))))

omit hroom in
/-- The call that takes the outcome, and what comes after it. -/
theorem Resumes.sits_join (hs : s ∈ e.stops) : Sits c.code (e.joinAt s + 1)
    (.invoke e.join :: (s.adapt ++ [.goto (UInt32.ofNat (pos (s.point.instr + 1)))])) := by
  obtain ⟨-, hrest⟩ := sits_append_iff.mp (hr.stub s hs)
  exact (sits_cons_iff.mp (show Sits _ (e.joinAt s) (.load (e.home 3) :: _) from hrest)).2

end

end Emission

end Resumable
