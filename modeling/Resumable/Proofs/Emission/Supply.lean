import Resumable.Proofs.Emission.Additions
import Resumable.Proofs.Emission.Resumption
import Resumable.Proofs.Suspension.Extension

/-!
# What emitted code refers to

The code of a state machine finds every table entry that it refers to, and every branch in it leads to
an instruction. Which locals it may name depends on what is known of its plan, and is left open here.
-/

namespace Resumable

open Fragment List

/-- An index that wraps around still belongs to the table. -/
theorem exists_item?_ofNat {α : Type} {table : List α} {k : Nat} (hk : k < table.length) :
    ∃ a, item? table (UInt32.ofNat k) = some a := by
  rw [exists_item?_iff, UInt32.toNat_ofNat']
  exact Nat.lt_of_le_of_lt (Nat.mod_le _ _) hk

/-! ## Tables -/

/-- A stop whose layout and cast are in the tables. -/
structure Stop.Supplied (s : Stop) (u : CodeUnit) : Prop where
  layout : ∃ l, item? u.records s.layout = some l ∧ l.fields = s.point.fields
  adapt : ∀ i ∈ s.adapt, i.targets = [] ∧ ∀ ok, i.RefersTo u ok

namespace Emission

/-- What the code of a state machine refers to is in the tables. -/
structure Supplied (e : Emission) (u : CodeUnit) : Prop where
  isDone : ∃ s, item? u.symbols e.isDone = some s
  join : ∃ s, item? u.symbols e.join = some s
  suspend : ∃ s, item? u.symbols e.suspend = some s
  newError : ∃ s, item? u.symbols e.newError = some s
  continuationName : ∃ s, item? u.strings e.continuationName = some s
  resultClass : ∃ s, item? u.strings e.resultClass = some s
  invalidIndex : ∃ s, item? u.strings e.invalidIndex = some s
  stops : ∀ s ∈ e.stops, s.Supplied u

variable {e : Emission} {u : CodeUnit} {ok : UInt32 → Prop}

theorem Prepared.supplied (h : e.Prepared u) : e.Supplied u := by
  refine ⟨⟨_, h.isDone⟩, ⟨_, h.join⟩, ⟨_, h.suspend⟩, ⟨_, h.newError⟩, ⟨_, h.continuationName⟩,
    ⟨_, h.resultClass⟩, ⟨_, h.invalidIndex⟩, fun s hs => ?_⟩
  obtain ⟨_, _, ht⟩ := h.mem hs
  refine ⟨⟨_, ht.layout, rfl⟩, fun i hi => ?_⟩
  have hadapt := ht.adapt
  unfold Adapts at hadapt
  split at hadapt
  · rw [hadapt, mem_singleton] at hi
    subst hi
    exact ⟨rfl, fun _ => trivial⟩
  split at hadapt
  · rw [hadapt] at hi
    cases hi
  · obtain ⟨n, hn, heq⟩ := hadapt
    rw [heq, mem_singleton] at hi
    subst hi
    exact ⟨rfl, fun _ => ⟨_, hn⟩⟩

/-! ## Operands -/

/-- What is known of the operands that do not depend on tables: every captured position has a field,
and the locals that are named have a property. -/
structure Placed (e : Emission) (ok : UInt32 → Prop) : Prop where
  fields : ∀ s ∈ e.stops, s.point.live.length = s.point.fields.length
  scratch : ok e.scratch
  home : ∀ {k}, k ≤ 3 → ok (e.home k)
  param : ∀ {n : UInt32}, n.toNat ≤ 3 → ok n
  own : ∀ {n : UInt32}, n.toNat < e.plan.locals → ok n
  spill : ∀ s ∈ e.stops, ∀ k < s.point.depth, ok (e.spill k)
  captured : ∀ s ∈ e.stops, ∀ pos ∈ s.point.live, ok (e.captured pos)

section

variable (hs : e.Supplied u) (hp : e.Placed ok) {s : Stop} {i : Instr}

include hs hp

theorem Supplied.refers_slow (hmem : s ∈ e.stops) {machine : Option UInt32}
    (hm : ∀ n, machine = some n → ok n) :
    ∀ i ∈ e.slowCode machine s, i.targets = [] ∧ i.RefersTo u ok := by
  obtain ⟨l, hl, _⟩ := (hs.stops s hmem).layout
  have hmachine : (machine.elim .null .load : Instr).targets = [] ∧
      (machine.elim .null .load : Instr).RefersTo u ok := by
    cases machine with
    | none => exact ⟨rfl, trivial⟩
    | some n => exact ⟨rfl, hm n rfl⟩
  have hspill : ∀ k ∈ (range s.point.depth).reverse, ok (e.spill k) := fun k hk =>
    hp.spill s hmem k (mem_range.mp (mem_reverse.mp hk))
  unfold slowCode
  simp only [forall_mem_append, forall_mem_cons, forall_mem_map, not_mem_nil,
    false_implies, implies_true, and_true]
  refine ⟨⟨⟨⟨⟨⟨⟨rfl, hp.scratch⟩, fun k hk => ⟨rfl, hspill k hk⟩⟩, hmachine, rfl, hp.scratch⟩,
    fun pos hpos => ⟨rfl, hp.captured s hmem pos hpos⟩⟩, ⟨rfl, l, hl⟩, ⟨rfl, trivial⟩,
    ⟨rfl, hs.continuationName⟩, rfl, hs.suspend⟩, fun i hi => ?_⟩, rfl, trivial⟩
  split at hi
  · cases hi
  · rw [mem_singleton.mp hi]
    exact ⟨rfl, hs.resultClass⟩

theorem Supplied.refers_field (hmem : s ∈ e.stops) {k : Nat} (hk : k < s.point.live.length) :
    (Instr.recget s.layout (UInt32.ofNat k)).RefersTo u ok := by
  obtain ⟨l, hl, hfields⟩ := (hs.stops s hmem).layout
  obtain ⟨t, ht⟩ := exists_item?_ofNat (hp.fields s hmem ▸ hk)
  exact ⟨l, t, hl, hfields ▸ ht⟩

theorem Supplied.refers_restore (hmem : s ∈ e.stops) :
    ∀ i ∈ e.restoreCode s, i.targets = [] ∧ i.RefersTo u ok := by
  have hhome := hp.home (k := 2) (by omega)
  unfold restoreCode restoreLocals restoreStack
  simp only [forall_mem_append, forall_mem_flatMap, Prod.forall]
  constructor
  · intro pos k hk i hi
    rw [mk_mem_zipIdx_iff_getElem?] at hk
    split at hi
    next hlt =>
      simp only [mem_cons, not_mem_nil, or_false] at hi
      rcases hi with rfl | rfl | rfl
      · exact ⟨rfl, hhome⟩
      · exact ⟨rfl, hs.refers_field hp hmem (lt_of_getElem? hk)⟩
      · exact ⟨rfl, hp.own hlt⟩
    next => cases hi
  · intro t j hj i hi
    split at hi
    next k hk =>
      simp only [mem_cons, not_mem_nil, or_false] at hi
      rcases hi with rfl | rfl
      · exact ⟨rfl, hhome⟩
      · exact ⟨rfl, hs.refers_field hp hmem (findIdx?_eq_some_iff_getElem.mp hk).1⟩
    next =>
      split at hi <;> rw [mem_singleton.mp hi] <;> exact ⟨rfl, trivial⟩

omit hs hp in
theorem relabel_eq_plain {x i : Instr} (h : e.relabel x = .plain i) : i = x ∧ x.targets = [] := by
  cases x <;> cases h <;> exact ⟨rfl, rfl⟩

omit hp in
/-- The operands of the copies of instructions. -/
theorem Supplied.refers_copied (hbody : ∀ i ∈ e.body, i.RefersTo u ok) {k : Nat}
    (hi : .plain i ∈ e.copied k) : i.targets = [] ∧ i.RefersTo u ok := by
  unfold copied copyInstr at hi
  cases hfind : e.stops.find? (·.point.instr = k) with
  | some s =>
    rw [hfind] at hi
    unfold fastPath at hi
    simp only [codes_append, codes_plain, codes_code, codes_nil, mem_append, mem_map,
      mem_cons, not_mem_nil, or_false, reduceCtorEq, Labelled.plain.injEq,
      exists_eq_right] at hi
    rcases hi with (rfl | rfl) | rfl | hi
    · exact ⟨rfl, trivial⟩
    · exact ⟨rfl, hs.isDone⟩
    · exact ⟨rfl, hs.join⟩
    · exact ((hs.stops s (mem_of_find?_eq_some hfind)).adapt i hi).imp_right fun h => h ok
  | none =>
    rw [hfind] at hi
    cases hx : e.body[k]? with
    | none =>
      rw [hx] at hi
      cases hi
    | some x =>
      rw [hx] at hi
      obtain ⟨rfl, ht⟩ := relabel_eq_plain (mem_singleton.mp hi).symm
      exact ⟨ht, hbody i (mem_of_getElem? hx)⟩

theorem Supplied.refers_opening (hi : .plain i ∈ codes e.opening) :
    i.targets = [] ∧ i.RefersTo u ok := by
  rw [codes_opening, mem_append, mem_append, codes_dispatch, codes_flatMap,
    mem_flatMap] at hi
  simp only [codes_stub, mem_append, mem_map, mem_cons, not_mem_nil, or_false,
    reduceCtorEq, Labelled.plain.injEq, exists_eq_right] at hi
  rcases hi with (hi | rfl | hi) | ⟨s, hmem, hi | hi⟩
  · revert hi i
    unfold moveCode
    simp only [forall_mem_cons, not_mem_nil, false_implies, implies_true, and_true]
    exact ⟨⟨rfl, hp.param (by decide)⟩, ⟨rfl, hp.home (by omega)⟩, ⟨rfl, hp.param (by decide)⟩,
      ⟨rfl, hp.home (by omega)⟩, ⟨rfl, hp.param (by decide)⟩, ⟨rfl, hp.home (by omega)⟩,
      ⟨rfl, hp.param (by decide)⟩, rfl, hp.home (by omega)⟩
  · exact ⟨rfl, hp.home (by omega)⟩
  · unfold invalidCode at hi
    simp only [mem_cons, not_mem_nil, or_false] at hi
    rcases hi with rfl | rfl | rfl
    · exact ⟨rfl, hs.invalidIndex⟩
    · exact ⟨rfl, hs.newError⟩
    · exact ⟨rfl, trivial⟩
  · exact hs.refers_restore hp hmem i hi
  · unfold joinCode at hi
    simp only [mem_append, mem_cons, not_mem_nil, or_false] at hi
    rcases hi with (rfl | rfl) | hi
    · exact ⟨rfl, hp.home (by omega)⟩
    · exact ⟨rfl, hs.join⟩
    · exact ((hs.stops s hmem).adapt i hi).imp_right fun h => h ok

end

/-! ## Branches -/

/-- Is a place one that control can go to? The others are ends of ranges. -/
def leads : Place → Bool
  | .blockStart _ | .slow _ | .stub _ | .invalid => true
  | _ => false

theorem leads_of_label {included : List Nat} {machine : Option UInt32} {pre : List (Item Place)}
    {rest : List Stop} {extra : List (LabelledHandler Place)} {frag : Fragment Place}
    {handlers : List Handler} {splits : List Int}
    (ha : e.Arranged included machine pre rest extra frag)
    (hd : e.graph.Divides e.body handlers splits)
    (hpre : ∀ x ∈ codes pre, ∀ l ∈ x.labels, leads l) :
    ∀ x ∈ codes frag.items, ∀ l ∈ x.labels, leads l := by
  intro x hx l hl
  rw [ha.items, codes_append, codes_append, codes_copyBlocks hd, codes_flatMap,
    mem_append, mem_append, mem_flatMap, mem_flatMap] at hx
  rcases hx with hx | ⟨k, _, hx⟩ | ⟨s, _, hx⟩
  · exact hpre x hx l hl
  · unfold copied copyInstr at hx
    cases hfind : e.stops.find? (·.point.instr = k) with
    | some s =>
      rw [hfind] at hx
      unfold fastPath at hx
      simp only [codes_append, codes_plain, codes_code, codes_nil, mem_append, mem_map,
        mem_cons, not_mem_nil, or_false] at hx
      rcases hx with (⟨i, _, rfl⟩ | rfl) | ⟨i, _, rfl⟩
      · cases hl
      · rw [mem_singleton.mp hl]
        rfl
      · cases hl
    | none =>
      rw [hfind] at hx
      cases hy : e.body[k]? with
      | none =>
        rw [hy] at hx
        cases hx
      | some y =>
        rw [hy] at hx
        rw [mem_singleton.mp hx, labels_relabel] at hl
        obtain ⟨t, _, rfl⟩ := mem_map.mp hl
        rfl
  · rw [slowPath_eq, codes_mark, codes_plain, mem_map] at hx
    obtain ⟨j, _, rfl⟩ := hx
    cases hl

theorem copied_ne_nil {i : Nat} (hi : i < e.body.length) : e.copied i ≠ [] := by
  unfold copied copyInstr
  cases e.stops.find? (·.point.instr = i) with
  | some s => exact cons_ne_nil _ _
  | none =>
    rw [getElem?_eq_getElem hi]
    exact cons_ne_nil _ _

section

variable {included : List Nat} {machine : Option UInt32} {pre : List (Item Place)}
  {rest : List Stop} {extra : List (LabelledHandler Place)} {frag : Fragment Place}
  {handlers : List Handler} {splits : List Int} {is : List Instr} {hs : List Handler}
  (ha : e.Arranged included machine pre rest extra frag)
  (hd : e.graph.Divides e.body handlers splits)
  (hfin : frag.finish = .ok (is, hs))

include ha hd hfin

/-- Where control can go to, there is an instruction. -/
theorem Arranged.address_lt (hpre : ∀ p k, (p, k) ∈ marksFrom 0 pre → leads p → k < (codes pre).length)
    {p : Place} (hp : leads p) (hm : frag.Marked p) : (frag.address p).toNat < is.length := by
  obtain ⟨k, hk, haddr⟩ := hm.exists_mark
  have hlt : k < is.length := by
    rcases (ha.mem_marks hd).mp hk with hk | ⟨b, B, hB, hb, ⟨rfl, rfl⟩ | ⟨rfl, _⟩⟩ | ⟨j, s, hs, _, rfl⟩
    · have := hpre p k hk hp
      have := ha.place_le hd hfin (Nat.zero_le _)
      omega
    · have hwithin := hd.within hB
      have hfirst : B.start < e.body.length := by omega
      have hnum : e.graph.blockNumber B.start = b :=
        hd.number hB (Nat.le_refl _) hwithin.2.1
      obtain ⟨x, xs, hx⟩ := exists_cons_of_ne_nil (copied_ne_nil hfirst)
      have hsits := ha.sits_copied hd hfin (hnum ▸ hb) hfirst
      rw [hx, map_cons, sits_cons_iff] at hsits
      exact lt_of_getElem? hsits.1
    · cases hp
    · exact (List.getElem?_eq_some_iff.mp (ha.sits_slow hfin hs (k := 0) rfl)).1
  rw [haddr, UInt32.toNat_ofNat']
  exact Nat.lt_of_le_of_lt (Nat.mod_le _ _) hlt

omit hfin in
/-- Every handler of a fragment comes from one of the function. -/
theorem Arranged.handler_from (hextra : ∀ h ∈ extra, ∃ G ∈ e.graph.guards, ∃ p q,
      h = handlerOver G p q) {h : LabelledHandler Place} (hh : h ∈ frag.handlers) :
    ∃ h' ∈ handlers, h.kind = h'.kind ∧ leads h.target := by
  obtain ⟨G, hG, p, q, rfl⟩ : ∃ G ∈ e.graph.guards, ∃ p q, h = handlerOver G p q := by
    obtain ⟨guards, hguards, heq⟩ := ha.handlers
    rw [heq, mem_append] at hh
    rcases hh with hh | hh
    · obtain ⟨os, hos, hg⟩ := bind_eq_ok.mp hguards
      obtain rfl := pure_eq_ok.mp hg
      obtain ⟨o, ho, heq⟩ := mem_filterMap.mp hh
      obtain ⟨k, hk⟩ := mem_iff_getElem?.mp ho
      obtain ⟨G, hG, hcopy⟩ := forall₂_getElem? (mapM_eq_ok.mp hos) hk
      refine ⟨G, mem_of_getElem? hG, ?_⟩
      rcases copyGuard_cases hcopy with ⟨rfl, _⟩ | ⟨first, last, rfl, _⟩
      · cases heq
      · cases heq
        exact ⟨_, _, rfl⟩
    · exact hextra h hh
  rw [hd.guards] at hG
  obtain ⟨⟨h', k⟩, hk, rfl⟩ := mem_map.mp hG
  exact ⟨h', mem_of_getElem? (mk_mem_zipIdx_iff_getElem?.mp hk), rfl, rfl⟩

end

/-- The code before the copied blocks branches to places that control can go to. -/
theorem leads_of_opening {x : Labelled Place} (hx : x ∈ codes e.opening) {p : Place}
    (hp : p ∈ x.labels) : leads p := by
  rw [codes_opening, mem_append, mem_append, codes_dispatch, codes_flatMap,
    mem_flatMap] at hx
  simp only [codes_stub, mem_append, mem_map, mem_cons, not_mem_nil,
    or_false] at hx
  rcases hx with (⟨i, _, rfl⟩ | (rfl | rfl) | ⟨i, _, rfl⟩) |
    ⟨s, _, (⟨i, _, rfl⟩ | ⟨i, _, rfl⟩) | rfl⟩
  · cases hp
  · cases hp
  · rcases mem_append.mp hp with hp | hp
    · obtain ⟨s, _, rfl⟩ := mem_map.mp hp
      rfl
    · rw [mem_singleton.mp hp]
      rfl
  · cases hp
  · cases hp
  · cases hp
  · rw [mem_singleton.mp hp]
    rfl

/-- There is an instruction at the places before the copied blocks that control can go to. -/
theorem opening_lt {p : Place} {k : Nat} (hk : (p, k) ∈ marksFrom 0 e.opening) (hp : leads p) :
    k < (codes e.opening).length := by
  rw [length_opening]
  rcases mem_marks_opening.mp hk with ⟨_, rfl⟩ | ⟨j, s, hs, hk⟩
  · unfold stubAt
    omega
  · have hj := lt_of_getElem? hs
    have hsucc := stubAt_succ hs
    have hmono : e.stubAt (j + 1) ≤ e.stubAt e.stops.length := stubAt_mono hj
    rcases marks_stub.mp hk with ⟨_, rfl⟩ | ⟨rfl, _⟩ | ⟨rfl, _⟩
    · omega
    · cases hp
    · cases hp

end Emission

/-! ## Whole functions -/

/-- Code whose operands refer to table entries that are there, and whose branches and handlers lead
to instructions. -/
structure CodeUnit.Supports (u : CodeUnit) (ok : UInt32 → Prop) (is : List Instr)
    (hs : List Handler) : Prop where
  nonempty : is ≠ []
  refers : ∀ i ∈ is, i.RefersTo u ok
  targets : ∀ i ∈ is, ∀ t ∈ i.targets, t.toNat < is.length
  handlers : ∀ h ∈ hs, h.target.toNat < is.length

namespace Emission

variable {e : Emission} {u : CodeUnit} {ok : UInt32 → Prop} {frag : Fragment Place}
  {handlers : List Handler} {splits : List Int} {is : List Instr} {hs' : List Handler}
  (hs : e.Supplied u) (hp : e.Placed ok)
  (hd : e.graph.Divides e.body handlers splits) (hn : e.Numbered)
  (hbody : ∀ i ∈ e.body, i.RefersTo u ok)

include hs hp hd hbody

/-- The code of a fragment with copied blocks. -/
theorem Supplied.supports {included : List Nat} {machine : Option UInt32}
    {pre : List (Item Place)} {rest : List Stop} {extra : List (LabelledHandler Place)}
    (ha : e.Arranged included machine pre rest extra frag) (hfin : frag.finish = .ok (is, hs'))
    (hne : is ≠ []) (hpre : ∀ i, .plain i ∈ codes pre → i.targets = [] ∧ i.RefersTo u ok)
    (hlabels : ∀ x ∈ codes pre, ∀ p ∈ x.labels, leads p)
    (hmarks : ∀ p k, (p, k) ∈ marksFrom 0 pre → leads p → k < (codes pre).length)
    (hm : ∀ n, machine = some n → ok n) (hrest : ∀ s ∈ rest, s ∈ e.stops)
    (hextra : ∀ h ∈ extra, ∃ G ∈ e.graph.guards, ∃ p q, h = handlerOver G p q) :
    u.Supports ok is hs' ∧ ∀ h ∈ hs', ∃ h' ∈ handlers, h.kind = h'.kind := by
  obtain ⟨⟨hcodes, his⟩, hhs, hfilter⟩ := finish_eq_ok.mp hfin
  have hlead := leads_of_label ha hd hlabels
  have hplain : ∀ i, .plain i ∈ codes frag.items → i.targets = [] ∧ i.RefersTo u ok := by
    intro i hi
    rw [ha.items, codes_append, codes_append, codes_copyBlocks hd, codes_flatMap,
      mem_append, mem_append, mem_flatMap, mem_flatMap] at hi
    rcases hi with hi | ⟨k, _, hi⟩ | ⟨s, hmem, hi⟩
    · exact hpre i hi
    · exact hs.refers_copied hbody hi
    · rw [slowPath_eq, codes_mark, codes_plain, mem_map] at hi
      obtain ⟨j, hj, hji⟩ := hi
      cases hji
      exact hs.refers_slow hp (hrest s hmem) hm i hj
  have hhandlers : ∀ h ∈ hs', h.target.toNat < is.length ∧ ∃ h' ∈ handlers, h.kind = h'.kind := by
    intro h hh
    rw [← hfilter, mem_filter, mem_map] at hh
    obtain ⟨⟨g, hg, rfl⟩, _⟩ := hh
    obtain ⟨h', hh', hkind, hleads⟩ := ha.handler_from hd hextra hg
    exact ⟨ha.address_lt hd hfin hmarks hleads (hhs g hg).2.2, h', hh', hkind⟩
  refine ⟨⟨hne, fun i hi => ?_, fun i hi t ht => ?_, fun h hh => (hhandlers h hh).1⟩,
    fun h hh => (hhandlers h hh).2⟩
  · obtain ⟨x, hx, rfl⟩ := mem_map.mp (his ▸ hi)
    cases x with
    | plain i => exact (hplain i hx).2
    | _ => exact trivial
  · obtain ⟨x, hx, rfl⟩ := mem_map.mp (his ▸ hi)
    have htarget : ∀ p ∈ x.labels, (frag.address p).toNat < is.length := fun p hl =>
      ha.address_lt hd hfin hmarks (hlead x hx p hl) (hcodes x hx p hl)
    cases x with
    | plain i =>
      rw [show (Labelled.toInstr frag.address (.plain i)).targets = i.targets from rfl,
        (hplain i hx).1] at ht
      cases ht
    | goto p | branch test p =>
      rw [mem_singleton.mp ht]
      exact htarget p mem_cons_self
    | switch low ps d =>
      rcases mem_append.mp ht with ht | ht
      · obtain ⟨p, hmem, rfl⟩ := mem_map.mp ht
        exact htarget p (mem_append_left _ hmem)
      · rw [mem_singleton.mp ht]
        exact htarget d (mem_append_right _ mem_cons_self)

include hn

theorem Supplied.supports_suspendable (hne : e.plan.points ≠ []) (h : e.suspendable = .ok frag)
    (hfin : frag.finish = .ok (is, hs')) :
    u.Supports ok is hs' ∧ ∀ h ∈ hs', ∃ h' ∈ handlers, h.kind = h'.kind := by
  have ha := arranged_of_suspendable h hn.nodup
  refine hs.supports hp hd hbody ha hfin ?_ (fun i hi => by cases hi) (fun x hx => by cases hx)
    (fun p k hk => by cases hk) (fun n hn => by cases hn) (fun s hs => hs) fun h hh => by cases hh
  -- every stop captures what is live, so there is code
  obtain ⟨p, hpoint⟩ := exists_mem_of_ne_nil _ hne
  obtain ⟨s, hmem, _⟩ := hn.exists_stop hpoint
  obtain ⟨⟨_, rfl⟩, _⟩ := finish_eq_ok.mp hfin
  refine ne_nil_of_mem (mem_map_of_mem (a := .plain (.store e.scratch)) ?_)
  rw [ha.items, codes_append, codes_append, codes_flatMap]
  exact mem_append_right _ (mem_append_right _
    (mem_flatMap.mpr ⟨s, hmem, mem_cons_self⟩))

theorem Supplied.supports_continuation (h : e.continuation = .ok frag)
    (hfin : frag.finish = .ok (is, hs')) :
    u.Supports ok is hs' ∧ ∀ h ∈ hs', ∃ h' ∈ handlers, h.kind = h'.kind := by
  have ha := arranged_of_continuation h hn.nodup
  refine hs.supports hp hd hbody ha hfin ?_ (fun i => hs.refers_opening hp)
    (fun x hx p hl => leads_of_opening hx hl) (fun p k hk hlead => opening_lt hk hlead) ?_
    (fun s hmem => (mem_filter.mp hmem).1) fun h hh => ?_
  · have hle := opening_le ha hd hfin
    rw [length_opening, stubAt] at hle
    exact ne_nil_of_length_pos (by omega)
  · intro n hn
    cases hn
    exact hp.home (by omega)
  · obtain ⟨s, _, hh⟩ := mem_flatMap.mp hh
    obtain ⟨G, hG, rfl⟩ := mem_map.mp hh
    exact ⟨G, (mem_filter.mp hG).1, _, _, rfl⟩

end Emission

end Resumable
