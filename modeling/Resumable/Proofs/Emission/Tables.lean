import Resumable.Emission.Machine
import Resumable.Proofs.Pointwise
import Resumable.Proofs.Table

/-!
# The tables of a unit with state machines

Emitting code extends the tables of the unit, so an index that was in use keeps its meaning. The
indices that the code of a state machine refers to stand for the runtime calls, the names and the
layouts that were asked for, as long as the tables can be indexed by 32 bits and no symbol is written
like one of the runtime calls without being it.
-/

namespace Resumable

open List

/-! ## Growing tables -/

/-- The tables of a unit, with more entries at their ends. -/
structure CodeUnit.Extends (u u' : CodeUnit) : Prop where
  strings : u.strings <+: u'.strings
  symbols : u.symbols <+: u'.symbols
  records : u.records <+: u'.records

/-- All tables can be indexed by 32 bits. -/
structure CodeUnit.Indexed (u : CodeUnit) : Prop where
  strings : u.strings.length ≤ 2 ^ 32
  symbols : u.symbols.length ≤ 2 ^ 32
  records : u.records.length ≤ 2 ^ 32

namespace CodeUnit

variable {u v w : CodeUnit}

theorem Extends.refl (u : CodeUnit) : u.Extends u :=
  ⟨prefix_refl _, prefix_refl _, prefix_refl _⟩

theorem Extends.trans (h : u.Extends v) (h' : v.Extends w) : u.Extends w :=
  ⟨h.strings.trans h'.strings, h.symbols.trans h'.symbols, h.records.trans h'.records⟩

theorem Indexed.of_extends (h : u.Extends v) (hv : v.Indexed) : u.Indexed :=
  ⟨Nat.le_trans h.strings.length_le hv.strings, Nat.le_trans h.symbols.length_le hv.symbols,
    Nat.le_trans h.records.length_le hv.records⟩

theorem addString_spec (u : CodeUnit) (s : Text) :
    u.Extends (u.addString s).2 ∧ (u.addString s).2.symbols = u.symbols ∧
      ((u.addString s).2.Indexed → item? (u.addString s).2.strings (u.addString s).1 = some s) := by
  unfold addString
  cases hk : u.strings.findIdx? (· = s) with
  | some k =>
    refine ⟨.refl u, rfl, fun hi => ?_⟩
    obtain ⟨x, hx, hp⟩ := item?_findIdx hk hi.strings
    rw [hx, of_decide_eq_true hp]
  | none =>
    exact ⟨⟨prefix_append _ _, prefix_refl _, prefix_refl _⟩, rfl,
      fun hi => item?_append_singleton hi.strings⟩

theorem addRecord_spec (u : CodeUnit) (l : Layout) :
    u.Extends (u.addRecord l).2 ∧
      ((u.addRecord l).2.Indexed → item? (u.addRecord l).2.records (u.addRecord l).1 = some l) :=
  ⟨⟨prefix_refl _, prefix_refl _, prefix_append _ _⟩,
    fun hi => item?_append_singleton hi.records⟩

/-- The calls that the code of state machines makes by itself. -/
def runtimeCalls : List Symbol :=
  [RuntimeCall.isDone, RuntimeCall.join, RuntimeCall.suspend, RuntimeCall.newError]

/-- A symbol that is written like one of the runtime calls is that call. -/
def RuntimeDistinct (u : CodeUnit) : Prop :=
  ∀ s ∈ u.symbols, ∀ r ∈ runtimeCalls, s.text = r.text → s = r

theorem runtimeCalls_distinct :
    ∀ s ∈ runtimeCalls, ∀ r ∈ runtimeCalls, s.text = r.text → s = r := by
  decide +kernel

theorem addSymbol_spec {r : Symbol} (hr : r ∈ runtimeCalls) (hu : u.RuntimeDistinct) :
    u.Extends (u.addSymbol r).2 ∧ (u.addSymbol r).2.RuntimeDistinct ∧
      ((u.addSymbol r).2.Indexed →
        item? (u.addSymbol r).2.symbols (u.addSymbol r).1 = some r) := by
  unfold addSymbol
  cases hk : u.symbols.findIdx? (·.text = r.text) with
  | some k =>
    refine ⟨.refl u, hu, fun hi => ?_⟩
    obtain ⟨x, hx, hp⟩ := item?_findIdx hk hi.symbols
    rw [hx, hu x (mem_of_getElem? hx) r hr (of_decide_eq_true hp)]
  | none =>
    refine ⟨⟨prefix_refl _, prefix_append _ _, prefix_refl _⟩, ?_,
      fun hi => item?_append_singleton hi.symbols⟩
    intro s hs
    rcases mem_append.mp hs with hs | hs
    · exact hu s hs
    · rw [mem_singleton.mp hs]
      exact runtimeCalls_distinct r hr

end CodeUnit

/-! ## Actions on tables -/

/-- An action on the tables of a unit extends them and keeps what `inv` says about them, and what it
returns is described by `P` in the tables at the end and in all that extend them, as far as `fin`
holds. -/
def Grows {α : Type} (inv fin : CodeUnit → Prop) (x : StateM CodeUnit α)
    (P : CodeUnit → α → Prop) : Prop :=
  ∀ u : CodeUnit, inv u →
    u.Extends (x u).2 ∧ inv (x u).2 ∧ ∀ w, (x u).2.Extends w → fin w → P w (x u).1

namespace Grows

section

variable {α β : Type} {inv fin : CodeUnit → Prop} {P : CodeUnit → α → Prop} {R : CodeUnit → β → Prop}

theorem pure {a : α} (h : ∀ w, P w a) : Grows inv fin (Pure.pure a) P :=
  fun u hu => ⟨.refl u, hu, fun w _ _ => h w⟩

theorem bind {x : StateM CodeUnit α} {k : α → StateM CodeUnit β} (hx : Grows inv fin x P)
    (hk : ∀ a, Grows inv fin (k a) fun w b => P w a → R w b) : Grows inv fin (x >>= k) R := by
  intro u hu
  obtain ⟨hext, hinv, hP⟩ := hx u hu
  obtain ⟨hext', hinv', hR⟩ := hk (x u).1 (x u).2 hinv
  exact ⟨hext.trans hext', hinv', fun w hw hi => hR w hw hi (hP w (hext'.trans hw) hi)⟩

theorem mapM {k : α → StateM CodeUnit β} {R : α → CodeUnit → β → Prop}
    (hk : ∀ a, Grows inv fin (k a) (R a)) (rows : List α) :
    Grows inv fin (rows.mapM k) fun w => Forall₂ (fun a => R a w) rows := by
  induction rows with
  | nil => exact pure fun _ => .nil
  | cons a rows ih =>
    rw [mapM_cons]
    refine (hk a).bind fun b => ih.bind fun bs => pure fun w => ?_
    intro hbs hb
    exact .cons hb hbs

end

/-- In tables of which all entries can be addressed, what an action returns stands for itself. -/
abbrev Exactly {α : Type} (x : StateM CodeUnit α) (P : CodeUnit → α → Prop) : Prop :=
  Grows CodeUnit.RuntimeDistinct CodeUnit.Indexed x P

theorem addSymbol {r : Symbol} (hr : r ∈ CodeUnit.runtimeCalls) :
    Exactly (fun u => u.addSymbol r) fun w n => item? w.symbols n = some r := by
  intro u hu
  obtain ⟨hext, hdistinct, hitem⟩ := CodeUnit.addSymbol_spec hr hu
  exact ⟨hext, hdistinct, fun w hw hi => item?_mono hw.symbols (hitem (hi.of_extends hw))⟩

theorem addString (s : Text) :
    Exactly (fun u => u.addString s) fun w n => item? w.strings n = some s := by
  intro u hu
  obtain ⟨hext, hsymbols, hitem⟩ := u.addString_spec s
  refine ⟨hext, ?_, fun w hw hi => item?_mono hw.strings (hitem (hi.of_extends hw))⟩
  unfold CodeUnit.RuntimeDistinct
  rw [hsymbols]
  exact hu

theorem addRecord (l : Layout) :
    Exactly (fun u => u.addRecord l) fun w n => item? w.records n = some l := by
  intro u hu
  obtain ⟨hext, hitem⟩ := u.addRecord_spec l
  exact ⟨hext, hu, fun w hw hi => item?_mono hw.records (hitem (hi.of_extends hw))⟩

end Grows

/-! ## What the code refers to -/

/-- Code that gives a joined value the type that a suspending call returns. -/
def Adapts (u : CodeUnit) (t : Ty) (is : List Instr) : Prop :=
  if t = .void then is = [.pop]
  else if t.className = ClassName.object then is = []
  else ∃ n, item? u.strings n = some t.className ∧ is = [.checkcast n]

/-- A stop for a point, with its number and its places in the tables. -/
structure Stop.Tabled (s : Stop) (f : Func) (p : Point) (k : Nat) (u : CodeUnit) : Prop where
  point : s.point = p
  number : s.number = k
  layout : item? u.records s.layout = some ⟨f.name, UInt32.ofNat p.id, p.fields⟩
  adapt : Adapts u p.await.result s.adapt

namespace Emission

theorem addStop_grows (f : Func) (p : Point) (k : Nat) :
    Grows.Exactly (addStop f p k) fun w s => s.Tabled f p k w := by
  refine (Grows.addRecord _).bind fun layout => ?_
  by_cases hv : p.await.result = .void
  · simp only [if_pos hv]
    refine .pure fun w hlayout => ⟨rfl, rfl, hlayout, ?_⟩
    exact (if_pos hv).mpr rfl
  by_cases ho : p.await.result.className = ClassName.object
  · simp only [if_neg hv, if_pos ho]
    refine .pure fun w hlayout => ⟨rfl, rfl, hlayout, ?_⟩
    unfold Adapts
    rw [if_neg hv, if_pos ho]
  · simp only [if_neg hv, if_neg ho]
    refine (Grows.addString _).bind fun cls => .pure fun w hcls hlayout => ⟨rfl, rfl, hlayout, ?_⟩
    unfold Adapts
    rw [if_neg hv, if_neg ho]
    exact ⟨cls, hcls, rfl⟩

/-- The entries of the tables that the code of a state machine refers to. -/
structure Prepared (e : Emission) (u : CodeUnit) : Prop where
  stops : List.Forall₂ (fun (q : Point × Nat) s => s.Tabled e.function q.1 q.2 u)
    e.plan.points.zipIdx e.stops
  isDone : item? u.symbols e.isDone = some RuntimeCall.isDone
  join : item? u.symbols e.join = some RuntimeCall.join
  suspend : item? u.symbols e.suspend = some RuntimeCall.suspend
  newError : item? u.symbols e.newError = some RuntimeCall.newError
  continuationName : item? u.strings e.continuationName = some e.plan.continuation
  resultClass : item? u.strings e.resultClass = some e.function.result.className
  invalidIndex : item? u.strings e.invalidIndex = some "invalid resumption index"

theorem prepare_grows (f : Func) (body : List Instr) (plan : Plan) :
    Grows.Exactly (prepare f body plan) fun w e =>
      e.function = f ∧ e.body = body ∧ e.plan = plan ∧ e.Prepared w := by
  refine (Grows.addSymbol (by simp [CodeUnit.runtimeCalls])).bind fun isDone => ?_
  refine (Grows.addSymbol (by simp [CodeUnit.runtimeCalls])).bind fun join => ?_
  refine (Grows.addSymbol (by simp [CodeUnit.runtimeCalls])).bind fun suspend => ?_
  refine (Grows.addSymbol (by simp [CodeUnit.runtimeCalls])).bind fun newError => ?_
  refine (Grows.addString _).bind fun continuationName => ?_
  refine (Grows.addString _).bind fun resultClass => ?_
  refine (Grows.addString _).bind fun invalidIndex => ?_
  have hadd : ∀ q : Point × Nat, Grows.Exactly (addStop f q.1 q.2) fun w s => s.Tabled f q.1 q.2 w :=
    fun q => addStop_grows f q.1 q.2
  refine (Grows.mapM hadd _).bind fun stops => .pure fun w => ?_
  intro hstops h₇ h₆ h₅ h₄ h₃ h₂ h₁
  exact ⟨rfl, rfl, rfl, ⟨hstops, h₁, h₂, h₃, h₄, h₅, h₆, h₇⟩⟩

/-! ## Numbers of stops -/

variable {e : Emission} {u : CodeUnit}

/-- There is one stop per point, in the order of the points. -/
def Numbered (e : Emission) : Prop :=
  List.Forall₂ (fun (q : Point × Nat) s => s.point = q.1 ∧ s.number = q.2) e.plan.points.zipIdx e.stops

theorem addStop_point (f : Func) (p : Point) (k : Nat) (u : CodeUnit) :
    (addStop f p k u).1.point = p ∧ (addStop f p k u).1.number = k := by
  unfold addStop
  by_cases hv : p.await.result = .void
  · simp only [if_pos hv]
    exact ⟨rfl, rfl⟩
  by_cases ho : p.await.result.className = ClassName.object
  · simp only [if_neg hv, if_pos ho]
    exact ⟨rfl, rfl⟩
  · simp only [if_neg hv, if_neg ho]
    exact ⟨rfl, rfl⟩

/-- Whatever the tables hold, every point gets its stop. -/
theorem numbered_prepare (f : Func) (body : List Instr) (plan : Plan) (u : CodeUnit) :
    (prepare f body plan u).1.Numbered := by
  have hrow : ∀ (row : List (Point × Nat)) (u : CodeUnit),
      Forall₂ (fun (q : Point × Nat) s => s.point = q.1 ∧ s.number = q.2) row
        (row.mapM (fun q => addStop f q.1 q.2) u).1 := by
    intro row
    induction row with
    | nil => exact fun u => .nil
    | cons q row ih =>
      intro u
      rw [mapM_cons]
      exact .cons (addStop_point f q.1 q.2 u) (ih (addStop f q.1 q.2 u).2)
  exact hrow plan.points.zipIdx _

theorem Prepared.numbered (h : e.Prepared u) : e.Numbered :=
  h.stops.imp fun _ _ ht => ⟨ht.point, ht.number⟩

section

variable (h : e.Numbered)

include h

theorem Numbered.getElem? {k : Nat} {s : Stop} (hs : e.stops[k]? = some s) :
    e.plan.points[k]? = some s.point ∧ s.number = k := by
  obtain ⟨q, hq, hpoint, hnumber⟩ := forall₂_getElem? h hs
  rw [getElem?_zipIdx] at hq
  obtain ⟨p, hp, rfl⟩ := Option.map_eq_some_iff.mp hq
  rw [hpoint, hnumber, Nat.zero_add]
  exact ⟨hp, rfl⟩

theorem Numbered.number {k : Nat} {s : Stop} (hs : e.stops[k]? = some s) : s.number = k :=
  (h.getElem? hs).2

/-- A stop has the place among the stops that its point has among the points. -/
theorem Numbered.mem {s : Stop} (hs : s ∈ e.stops) :
    e.stops[s.number]? = some s ∧ e.plan.points[s.number]? = some s.point := by
  obtain ⟨k, hk⟩ := mem_iff_getElem?.mp hs
  obtain ⟨hp, rfl⟩ := h.getElem? hk
  exact ⟨hk, hp⟩

theorem Numbered.nodup : (e.stops.map Stop.number).Nodup := by
  have hrange : e.stops.map Stop.number = range e.stops.length := by
    refine ext_getElem? fun k => ?_
    rw [getElem?_map]
    cases hk : e.stops[k]? with
    | none =>
      rw [List.getElem?_eq_none_iff] at hk
      rw [getElem?_eq_none (by simpa using hk)]
      rfl
    | some s =>
      rw [getElem?_range (lt_of_getElem? hk)]
      exact congrArg some (h.number hk)
  rw [hrange]
  exact nodup_range

theorem Numbered.map_point : e.stops.map Stop.point = e.plan.points := by
  rw [← zipIdx_map_fst 0 e.plan.points, ← forall₂_eq_eq_eq, forall₂_map_left_iff,
    forall₂_map_right_iff]
  exact h.flip.imp fun s q hq => hq.1

/-- Every point has a stop. -/
theorem Numbered.exists_stop {p : Point} (hp : p ∈ e.plan.points) : ∃ s ∈ e.stops, s.point = p := by
  rw [← h.map_point] at hp
  exact mem_map.mp hp

end

/-- A stop, with its place among the stops and that of its point. -/
theorem Prepared.mem (h : e.Prepared u) {s : Stop} (hs : s ∈ e.stops) :
    e.stops[s.number]? = some s ∧ e.plan.points[s.number]? = some s.point ∧
      s.Tabled e.function s.point s.number u := by
  obtain ⟨hk, hp⟩ := h.numbered.mem hs
  obtain ⟨q, hq, ht⟩ := forall₂_getElem? h.stops hk
  rw [getElem?_zipIdx, hp, Nat.zero_add] at hq
  cases hq
  exact ⟨hk, hp, ht⟩

end Emission

end Resumable
