import Resumable.Proofs.Emission.Tables

/-!
# What a state machine adds to a unit

Preparing a state machine adds strings, symbols and one layout per point to the tables of a unit, and
touches nothing else. Its two functions take over the signature of the function that they are made
from: the first all of it, the second only the result.
-/

namespace Resumable

open List

/-! ## Tables -/

/-- A unit that has gained strings, symbols and some layouts. -/
structure CodeUnit.Gains (u : CodeUnit) (rows : List Layout) (v : CodeUnit) : Prop where
  strings : u.strings <+: v.strings
  nodup : u.strings.Nodup → v.strings.Nodup
  symbols : u.symbols <+: v.symbols
  records : v.records = u.records ++ rows
  classes : v.classes = u.classes
  custom : v.custom = u.custom

namespace CodeUnit

variable {u v w : CodeUnit} {rows rows' : List Layout}

theorem Gains.refl (u : CodeUnit) : u.Gains [] u where
  strings := prefix_refl _
  nodup := id
  symbols := prefix_refl _
  records := (append_nil _).symm
  classes := rfl
  custom := rfl

theorem Gains.trans (h : u.Gains rows v) (h' : v.Gains rows' w) : u.Gains (rows ++ rows') w where
  strings := h.strings.trans h'.strings
  nodup hu := h'.nodup (h.nodup hu)
  symbols := h.symbols.trans h'.symbols
  records := by rw [h'.records, h.records, append_assoc]
  classes := h'.classes.trans h.classes
  custom := h'.custom.trans h.custom

/-- Functions are not among the tables that gain. -/
theorem Gains.functions {fs : List Func} (h : u.Gains rows v) :
    u.Gains rows { v with functions := fs } :=
  { h with }

theorem Gains.extends (h : u.Gains rows v) : u.Extends v :=
  ⟨h.strings, h.symbols, h.records ▸ prefix_append _ _⟩

theorem Gains.hierarchy_eq (h : u.Gains rows v) (loader : Resolver) :
    v.hierarchy loader = u.hierarchy loader := by
  unfold hierarchy
  rw [h.classes]

end CodeUnit

/-- An action on a unit that leaves its functions as they are and adds some layouts. -/
def Adds {α : Type} (x : StateM CodeUnit α) (rows : List Layout) : Prop :=
  ∀ u : CodeUnit, u.Gains rows (x u).2 ∧ (x u).2.functions = u.functions

namespace Adds

variable {α β : Type} {x : StateM CodeUnit α} {rows rows' : List Layout}

theorem pure (a : α) : Adds (Pure.pure a) [] := fun u => ⟨.refl u, rfl⟩

theorem bind {k : α → StateM CodeUnit β} (hx : Adds x rows) (hk : ∀ a, Adds (k a) rows') :
    Adds (x >>= k) (rows ++ rows') := by
  intro u
  obtain ⟨hgains, hfunctions⟩ := hx u
  obtain ⟨hgains', hfunctions'⟩ := hk (x u).1 (x u).2
  exact ⟨hgains.trans hgains', hfunctions'.trans hfunctions⟩

/-- What comes after an action that adds no layouts. -/
theorem andThen {k : α → StateM CodeUnit β} (hx : Adds x []) (hk : ∀ a, Adds (k a) rows) :
    Adds (x >>= k) rows :=
  hx.bind hk

theorem mapM {k : α → StateM CodeUnit β} {layouts : α → List Layout}
    (hk : ∀ a, Adds (k a) (layouts a)) (items : List α) :
    Adds (items.mapM k) (items.flatMap layouts) := by
  induction items with
  | nil => exact pure []
  | cons a items ih =>
    rw [mapM_cons, flatMap_cons]
    refine (hk a).bind fun b => ?_
    rw [← append_nil (items.flatMap layouts)]
    exact ih.bind fun bs => pure (b :: bs)

theorem addString (s : Text) : Adds (fun u => u.addString s) [] := by
  intro u
  show u.Gains [] (u.addString s).2 ∧ (u.addString s).2.functions = u.functions
  unfold CodeUnit.addString
  split
  next => exact ⟨.refl u, rfl⟩
  next hs =>
    refine ⟨{ CodeUnit.Gains.refl u with strings := prefix_append _ _, nodup := fun hu => ?_ }, rfl⟩
    -- a string that was not found is new
    refine nodup_append.mpr ⟨hu, by simp, fun a ha b hb => ?_⟩
    have hne := findIdx?_eq_none_iff.mp hs a ha
    rw [mem_singleton.mp hb]
    exact of_decide_eq_false hne

theorem addSymbol (s : Symbol) : Adds (fun u => u.addSymbol s) [] := by
  intro u
  show u.Gains [] (u.addSymbol s).2 ∧ (u.addSymbol s).2.functions = u.functions
  unfold CodeUnit.addSymbol
  split
  next => exact ⟨.refl u, rfl⟩
  next => exact ⟨{ CodeUnit.Gains.refl u with symbols := prefix_append _ _ }, rfl⟩

theorem addRecord (l : Layout) : Adds (fun u => u.addRecord l) [l] :=
  fun u => ⟨{ CodeUnit.Gains.refl u with records := rfl }, rfl⟩

end Adds

/-- The layout of what a point captures. -/
def Point.layout (f : Func) (p : Point) : Layout := ⟨f.name, UInt32.ofNat p.id, p.fields⟩

namespace Emission

theorem addStop_adds (f : Func) (p : Point) (k : Nat) : Adds (addStop f p k) [p.layout f] := by
  show Adds _ ([p.layout f] ++ [])
  refine (Adds.addRecord (p.layout f)).bind fun layout => ?_
  dsimp only
  split
  next => exact .pure _
  split
  next => exact .pure _
  next => exact (Adds.addString _).andThen fun cls => .pure _

/-- **A state machine adds one layout per point,** in the order of the points. -/
theorem prepare_adds (f : Func) (body : List Instr) (plan : Plan) :
    Adds (prepare f body plan) (plan.points.map (Point.layout f)) := by
  have hstops : Adds (plan.points.zipIdx.mapM fun q => addStop f q.1 q.2)
      (plan.points.map (Point.layout f)) := by
    have h := Adds.mapM (fun q : Point × Nat => addStop_adds f q.1 q.2) plan.points.zipIdx
    rw [← map_eq_flatMap] at h
    rw [show (fun q : Point × Nat => q.1.layout f) = Point.layout f ∘ Prod.fst from rfl,
      ← map_map, zipIdx_map_fst] at h
    exact h
  refine (Adds.addSymbol _).andThen fun isDone => (Adds.addSymbol _).andThen fun join => ?_
  refine (Adds.addSymbol _).andThen fun suspend => (Adds.addSymbol _).andThen fun newError => ?_
  refine (Adds.addString _).andThen fun name => (Adds.addString _).andThen fun result => ?_
  refine (Adds.addString _).andThen fun invalid => ?_
  rw [← append_nil (plan.points.map _)]
  exact hstops.bind fun stops => .pure _

/-- What is prepared is what was asked for. -/
theorem prepare_fields (f : Func) (body : List Instr) (plan : Plan) (u : CodeUnit) :
    (prepare f body plan u).1.function = f ∧ (prepare f body plan u).1.plan = plan :=
  ⟨rfl, rfl⟩

end Emission

/-! ## Functions -/

/-- What a fragment gives to the function that is made from it. -/
theorem Fragment.build_eq_ok {Label : Type} [BEq Label] {number : Label → Int} {u : CodeUnit}
    {code : Fragment Label} {proto f : Func} {frames : FrameTable}
    (h : code.build number u proto frames = .ok f) :
    ∃ is, code.finish = .ok (is, f.handlers) ∧ f.code = Instr.encodeAll is ∧
      f.maxLocals = localsNeeded is proto.params.length proto.maxLocals ∧
      f.name = proto.name ∧ f.params = proto.params ∧ f.result = proto.result ∧
      f.flags = proto.flags := by
  unfold build at h
  dsimp only at h
  split at h
  next result hcode =>
    obtain ⟨_, hresult, h⟩ := bind_eq_ok.mp h
    obtain rfl := pure_eq_ok.mp hresult
    obtain ⟨bound, _, h⟩ := bind_eq_ok.mp h
    obtain ⟨table, _, h⟩ := bind_eq_ok.mp h
    cases h
    exact ⟨result.1, hcode, rfl, rfl, rfl, rfl, rfl, rfl⟩
  next =>
    obtain ⟨_, hfail, _⟩ := bind_eq_ok.mp h
    exact absurd hfail Attempt.fail_ne_ok

/-- A state machine has the signature of the function that it is made from, and the flag that tells
so. Its continuation takes what resumes it. -/
structure Signed (f suspendable continuation : Func) : Prop where
  name : suspendable.name = f.name
  params : suspendable.params = f.params
  result : suspendable.result = f.result
  flags : suspendable.flags = f.flags ||| Func.transformedFlag
  continuationName : continuation.name = f.name ++ continuationSuffix
  continuationParams : continuation.params =
    [.ref ClassName.machine, .int, .ref ClassName.state, .ref ClassName.future]
  continuationResult : continuation.result = f.result
  continuationFlags : continuation.flags = Func.transformedFlag ||| Func.continuationFlag

namespace Emission

variable {e : Emission} {f c : Func} {a : Analyzer}

theorem functions_eq_ok (h : e.functions a = .ok (f, c)) :
    ∃ frag frag', e.suspendable = .ok frag ∧ e.continuation = .ok frag' ∧
      frag.build Place.number a.unit e.suspendableProto a.blockFrames = .ok f ∧
      frag'.build Place.number a.unit e.continuationProto a.blockFrames = .ok c := by
  unfold functions at h
  obtain ⟨f₁, hf, h⟩ := bind_eq_ok.mp h
  obtain ⟨c₁, hc, h⟩ := bind_eq_ok.mp h
  cases h
  obtain ⟨frag, hfrag, hf⟩ := bind_eq_ok.mp hf
  obtain ⟨frag', hfrag', hc⟩ := bind_eq_ok.mp hc
  exact ⟨frag, frag', hfrag, hfrag', hf, hc⟩

theorem functions_signed (h : e.functions a = .ok (f, c))
    (hname : e.plan.continuation = e.function.name ++ continuationSuffix) :
    Signed e.function f c := by
  obtain ⟨_, _, -, -, hf, hc⟩ := functions_eq_ok h
  obtain ⟨_, -, -, -, name, params, result, flags⟩ := Fragment.build_eq_ok hf
  obtain ⟨_, -, -, -, name', params', result', flags'⟩ := Fragment.build_eq_ok hc
  exact ⟨name, params, result, flags, name'.trans hname, params', result', flags'⟩

end Emission

end Resumable
