import Resumable.Proofs.Assembly.Fields
import Resumable.Proofs.Assembly.Items
import Resumable.Proofs.CodeUnit.Interning
import Resumable.Proofs.Pointwise

/-!
# Assembled units

What holds of every unit that is read from text: all entries can be spelled, none of them stands twice
where it would be found again, code is the encoding of a body, and the pool has the strings of the
bodies in the order of their first use.
-/

namespace Resumable

open Assembly Labelled List

/-! ## Tables -/

/-- Entries that assembly can spell, none of them twice. -/
structure CodeUnit.Spelled (u : CodeUnit) : Prop where
  classes : ∀ c ∈ u.classes, c.Spelled
  symbols : ∀ s ∈ u.symbols, s.Spelled
  records : ∀ l ∈ u.records, l.Spelled
  functions : ∀ f ∈ u.functions, f.Spelled
  distinct : (u.symbols.map Symbol.text).Nodup
  names : (u.functions.map Func.name).Nodup
  custom : u.custom = []

theorem forall_mem_append_singleton {α : Type} {p : α → Prop} {xs : List α} {x : α}
    (hxs : ∀ y ∈ xs, p y) (hx : p x) : ∀ y ∈ xs ++ [x], p y := by
  intro y hy
  rcases mem_append.mp hy with hy | hy
  · exact hxs y hy
  · rw [mem_singleton.mp hy]
    exact hx

namespace CodeUnit

variable {u u' : CodeUnit}

theorem Spelled.addSymbol {s : Symbol} (h : u.Spelled) (hs : s.Spelled) :
    (u.addSymbol s).2.Spelled := by
  have hdistinct := nodup_addSymbol (s := s) h.distinct
  rcases addSymbol_eq_or u s with heq | heq
  · rwa [heq]
  · rw [heq] at hdistinct ⊢
    exact { h with
      symbols := forall_mem_append_singleton h.symbols hs
      distinct := hdistinct }

theorem Spelled.addString (h : u.Spelled) (s : Text) : (u.addString s).2.Spelled := by
  rcases addString_cases u s with ⟨_, _, heq⟩ | ⟨_, heq⟩
  · rwa [heq]
  · rw [heq]
    exact { h with }

theorem Spelled.operandStep {step : Labelled Text} (h : u.Spelled) (hstep : OperandStep u step u') :
    u'.Spelled := by
  cases hstep with
  | nothing _ => exact h
  | string _ _ => exact h.addString _
  | symbol hs => exact h.addSymbol hs

end CodeUnit

/-! ## The first reading -/

namespace Assembly

variable {u : CodeUnit} {s : Text}

/-- What holds of a draft. -/
structure Draft.Sound (d : Draft) : Prop where
  unit : d.unit.Spelled
  strings : d.unit.strings = []
  ids : d.scope.functions.map Prod.fst = d.unit.functions.map (("$" : Text) ++ ·.name)
  indices : d.pending.map Pending.index = List.range d.unit.functions.length
  bodies : ∀ p ∈ d.pending, Lexed p.body

theorem Draft.Sound.step {ts : List Token} {d d' : Draft} (h : d.Sound) (hts : Lexed ts)
    (hstep : FieldStep ts d d') : d'.Sound := by
  cases hstep with
  | @classDecl c hc =>
    exact { h with
      unit := { h.unit with classes := forall_mem_append_singleton h.unit.classes hc } }
  | @importDecl id s ts' hform hs =>
    have hfunctions : (d.unit.addSymbol s).2.functions = d.unit.functions ∧
        (d.unit.addSymbol s).2.strings = d.unit.strings := by
      rcases d.unit.addSymbol_eq_or s with heq | heq <;> rw [heq] <;> exact ⟨rfl, rfl⟩
    refine ⟨h.unit.addSymbol hs, hfunctions.2.trans h.strings, ?_, ?_, h.bodies⟩
    · exact h.ids.trans (by rw [hfunctions.1])
    · exact h.indices.trans (by rw [hfunctions.1])
  | @record l hl =>
    exact { h with
      unit := { h.unit with records := forall_mem_append_singleton h.unit.records hl } }
  | @function f body locals stack hf hcode hnew hbody =>
    have hname : f.name ∉ d.unit.functions.map Func.name := by
      intro hmem
      obtain ⟨g, hg, hname⟩ := mem_map.mp hmem
      have hid : "$" ++ f.name ∈ d.scope.functions.map Prod.fst := by
        rw [h.ids, ← hname]
        exact mem_map_of_mem hg
      obtain ⟨⟨id, k⟩, hk, hid⟩ := mem_map.mp hid
      exact absurd (lookup_eq_none_iff.mp hnew _ hk) (by simp [← hid])
    refine ⟨{ h.unit with functions := ?_, names := ?_ }, h.strings, ?_, ?_, ?_⟩
    · exact forall_mem_append_singleton h.unit.functions hf
    · rw [map_append]
      refine h.unit.names.append (nodup_singleton _) fun t ht ht' => ?_
      exact hname (mem_singleton.mp ht' ▸ ht)
    · rw [map_append, map_append, h.ids]
      rfl
    · rw [map_append, h.indices, length_append, length_singleton,
        range_succ]
      rfl
    · exact forall_mem_append_singleton h.bodies (hts.of_suffix hbody)

/-- **Every draft of a first reading is sound.** -/
theorem Reading.sound {tokens : List Token} {d : Draft} (htokens : Lexed tokens)
    (h : Reading tokens d) : d.Sound := by
  induction h with
  | start =>
    have hnone {α : Type} {p : α → Prop} : ∀ x ∈ ([] : List α), p x := fun _ hx => nomatch hx
    exact ⟨⟨hnone, hnone, hnone, hnone, .nil, .nil, rfl⟩, rfl, rfl, rfl, hnone⟩
  | step hd hts hstep ih => exact ih.step (htokens.of_suffix hts) hstep

/-! ## Pools -/

/-- How many strings are known behind some uses of the pool, if `known` were before. Every use is of a
known string or of the next one. -/
def inOrder : (known : Nat) → List UInt32 → Option Nat
  | known, [] => some known
  | known, n :: ns =>
    if n.toNat < known then inOrder known ns
    else if n.toNat = known then inOrder (known + 1) ns
    else none

theorem inOrder_append (known : Nat) (ns ms : List UInt32) :
    inOrder known (ns ++ ms) = (inOrder known ns).bind (inOrder · ms) := by
  fun_induction inOrder known ns with
  | case1 => rfl
  | case2 known n ns h ih => rw [cons_append, inOrder, if_pos h, ih]
  | case3 ns n h ih => rw [cons_append, inOrder, if_neg h, if_pos rfl, ih]
  | case4 known n ns h h' => rw [cons_append, inOrder, if_neg h, if_neg h']; rfl

/-- A string that is interned is known, or is the next one. -/
theorem inOrder_addString (h : (u.addString s).2.strings.length ≤ 2 ^ 32) :
    inOrder u.strings.length [(u.addString s).1] = some (u.addString s).2.strings.length := by
  rcases u.addString_cases s with ⟨i, hi, heq⟩ | ⟨-, heq⟩
  · rw [heq] at h ⊢
    have hlt := lt_of_getElem? hi
    have hn : (UInt32.ofNat i).toNat = i := UInt32.toNat_ofNat_of_lt' (Nat.lt_of_lt_of_le hlt h)
    simp only [inOrder, hn, if_pos hlt]
  · rw [heq] at h ⊢
    have hlt : u.strings.length < 2 ^ 32 := by
      rw [length_append, length_singleton] at h
      omega
    have hn : (UInt32.ofNat u.strings.length).toNat = u.strings.length :=
      UInt32.toNat_ofNat_of_lt' hlt
    simp [inOrder, hn]

/-- Casts name classes that are identifiers. -/
def Casts (strings : List Text) (i : Instr) : Prop :=
  ∀ n, i.cast? = some n → ∃ s, item? strings n = some s ∧ IsIdent s

theorem Casts.mono {strings strings' : List Text} {i : Instr} (h : Casts strings i)
    (hs : strings <+: strings') : Casts strings' i := by
  intro n hn
  obtain ⟨s, hs', hident⟩ := h n hn
  exact ⟨s, item?_mono hs hs', hident⟩

/-- The bodies use the pool in its order, with identifiers for casts, as far as 32 bits can index it. -/
def Ordered (known : Nat) (bodies : List Instr) (strings : List Text) : Prop :=
  strings.length ≤ 2 ^ 32 →
    inOrder known (bodies.filterMap Instr.string?) = some strings.length ∧
      ∀ i ∈ bodies, Casts strings i

theorem string?_of_cast? {i : Instr} {n : UInt32} (h : i.cast? = some n) : i.string? = some n := by
  cases i <;> first | exact h | cases h

theorem strings_prefix_addString (u : CodeUnit) (s : Text) :
    u.strings <+: (u.addString s).2.strings := by
  rcases u.addString_cases s with ⟨_, _, heq⟩ | ⟨_, heq⟩
  · simp only [heq, prefix_refl]
  · simp only [heq, prefix_append]

theorem nodup_addString (h : u.strings.Nodup) :
    (u.addString s).2.strings.Nodup := by
  rcases u.addString_cases s with ⟨_, _, heq⟩ | ⟨hs, heq⟩
  · rwa [heq]
  · rw [heq]
    refine h.append (nodup_singleton s) fun t ht ht' => ?_
    exact hs (mem_singleton.mp ht' ▸ ht)

theorem item?_addString (h : (u.addString s).2.strings.length ≤ 2 ^ 32) :
    item? (u.addString s).2.strings (u.addString s).1 = some s := by
  rcases u.addString_cases s with ⟨i, hi, heq⟩ | ⟨-, heq⟩
  · rw [heq] at h ⊢
    have hlt : i < 2 ^ 32 := Nat.lt_of_lt_of_le (lt_of_getElem? hi) h
    unfold item?
    rwa [UInt32.toNat_ofNat_of_lt' hlt]
  · rw [heq] at h ⊢
    exact item?_append_singleton h

/-- Instructions with no string operand do not matter for the order. -/
theorem Ordered.append {known : Nat} {is js : List Instr} {strings strings' : List Text}
    (h : Ordered known is strings) (hs : strings <+: strings')
    (hjs : strings'.length ≤ 2 ^ 32 →
      inOrder strings.length (js.filterMap Instr.string?) = some strings'.length ∧
        ∀ i ∈ js, Casts strings' i) :
    Ordered known (is ++ js) strings' := by
  intro hle
  obtain ⟨horder, hcasts⟩ := h (Nat.le_trans hs.length_le hle)
  obtain ⟨horder', hcasts'⟩ := hjs hle
  refine ⟨?_, fun i hi => ?_⟩
  · rw [filterMap_append, inOrder_append, horder, Option.bind_some, horder']
  · rcases mem_append.mp hi with hi | hi
    · exact (hcasts i hi).mono hs
    · exact hcasts' i hi

end Assembly

/-- The instruction, if it has no labels. -/
def Labelled.plain? : Labelled Text → Option Instr
  | .plain i => some i
  | _ => none

namespace Assembly

/-- What holds while a body is read into the unit `u₀`. -/
structure BodySound (u₀ u : CodeUnit) (d : BodyDraft) : Prop where
  unit : u.Spelled
  functions : u.functions = u₀.functions
  strings : u₀.strings <+: u.strings
  symbols : u₀.symbols <+: u.symbols
  nodup : u.strings.Nodup
  ordered : Ordered u₀.strings.length (d.steps.filterMap Labelled.plain?) u.strings
  handlers : ∀ h ∈ d.handlers, HandlerSpelled h.cls h.kind
  frames : ∀ x ∈ d.frames, x.Spelled

variable {u₀ u u' : CodeUnit} {d d' : BodyDraft}

theorem OperandStep.strings_prefix {step : Labelled Text} (h : OperandStep u step u') :
    u.strings <+: u'.strings := by
  cases h with
  | nothing _ => exact prefix_refl _
  | string _ _ => exact strings_prefix_addString u _
  | @symbol s _ => rcases u.addSymbol_eq_or s with heq | heq <;> simp only [heq, prefix_refl]

theorem OperandStep.symbols_prefix {step : Labelled Text} (h : OperandStep u step u') :
    u.symbols <+: u'.symbols := by
  cases h with
  | nothing _ => exact prefix_refl _
  | @string _ s _ _ =>
    rcases u.addString_cases s with ⟨_, _, heq⟩ | ⟨_, heq⟩ <;>
      simp only [heq, prefix_refl]
  | symbol _ => exact u.symbols_prefix_addSymbol _

theorem OperandStep.nodup {step : Labelled Text} (h : OperandStep u step u') (hu : u.strings.Nodup) :
    u'.strings.Nodup := by
  cases h with
  | nothing _ => exact hu
  | string _ _ => exact nodup_addString hu
  | @symbol s _ => rcases u.addSymbol_eq_or s with heq | heq <;> rw [heq] <;> exact hu

theorem OperandStep.ordered {step : Labelled Text} (h : OperandStep u step u')
    (hle : u'.strings.length ≤ 2 ^ 32) :
    inOrder u.strings.length (step.plain?.toList.filterMap Instr.string?) =
        some u'.strings.length ∧ ∀ i ∈ step.plain?.toList, Casts u'.strings i := by
  -- An instruction that names no string.
  have hnone {i : Instr} (hi : i.string? = none) (strings : List Text) : Casts strings i :=
    fun n hn => nomatch hi.symm.trans (string?_of_cast? hn)
  cases h with
  | nothing hstep =>
    cases step with
    | plain i =>
      refine ⟨?_, fun j hj => ?_⟩
      · simp [plain?, filterMap, show i.string? = none from hstep, inOrder]
      · rw [show j = i by simpa [plain?] using hj]
        exact hnone hstep _
    | goto _ | branch _ _ | switch _ _ _ => exact ⟨rfl, fun j hj => nomatch hj⟩
  | @string i s hi hs =>
    refine ⟨?_, fun j hj n hn => ?_⟩
    · have huses : (plain i).plain?.toList.filterMap Instr.string? =
          [(u.addString s).1] := by
        simp [plain?, hi]
      rw [huses]
      exact inOrder_addString hle
    · obtain rfl : j = i := by simpa [plain?] using hj
      obtain rfl : n = (u.addString s).1 := Option.some.inj ((string?_of_cast? hn).symm.trans hi)
      exact ⟨s, item?_addString hle, hs (by rw [hn]; rfl)⟩
  | @symbol s hs =>
    refine ⟨?_, fun j hj => ?_⟩
    · rcases u.addSymbol_eq_or s with heq | heq <;> rw [heq] <;> rfl
    · obtain rfl : j = .invoke (u.addSymbol s).1 := by simpa [plain?] using hj
      exact hnone rfl _

theorem BodySound.step (h : BodySound u₀ u d) (hstep : ItemStep u d u' d') :
    BodySound u₀ u' d' := by
  cases hstep with
  | label hd =>
    exact { h with
      ordered := hd.steps ▸ h.ordered
      handlers := hd.handlers ▸ h.handlers
      frames := hd.frames ▸ h.frames }
  | handler hh hd =>
    exact { h with
      ordered := hd.steps ▸ h.ordered
      handlers := hd.handlers ▸ forall_mem_append_singleton h.handlers hh
      frames := hd.frames ▸ h.frames }
  | frame hx hd =>
    exact { h with
      ordered := hd.steps ▸ h.ordered
      handlers := hd.handlers ▸ h.handlers
      frames := hd.frames ▸ forall_mem_append_singleton h.frames hx }
  | @instr step _ _ hu hd =>
    refine ⟨h.unit.operandStep hu, hu.functions.trans h.functions, h.strings.trans hu.strings_prefix,
      h.symbols.trans hu.symbols_prefix, hu.nodup h.nodup, ?_, hd.handlers ▸ h.handlers,
      hd.frames ▸ h.frames⟩
    have hsteps : d'.steps.filterMap plain? =
        d.steps.filterMap plain? ++ step.plain?.toList := by
      rw [hd.steps, filterMap_append]
      cases step <;> rfl
    rw [hsteps]
    exact h.ordered.append hu.strings_prefix hu.ordered

/-- **Every reading of a body is sound.** -/
theorem BodyReading.sound (hu : u₀.Spelled) (hnodup : u₀.strings.Nodup) (h : BodyReading u₀ u d) :
    BodySound u₀ u d := by
  induction h with
  | start =>
    exact ⟨hu, rfl, prefix_refl _, prefix_refl _, hnodup,
      fun _ => ⟨rfl, fun _ hi => nomatch hi⟩, fun _ hh => (nomatch hh), fun _ hx => nomatch hx⟩
  | step hd hstep ih => exact ih.step hstep

/-! ## The second reading -/

/-- Resolution only fills in targets of branches. -/
theorem plain?_of_resolve {place : Text → Attempt UInt32} {step : Labelled Text} {i : Instr}
    (h : step.resolve place = .ok i) : step.plain? = some i ∨ step.plain? = none ∧ i.string? = none := by
  cases step with
  | plain j =>
    cases h
    exact .inl rfl
  | goto l | branch test l =>
    obtain ⟨_, -, hi⟩ := bind_eq_ok.mp h
    cases hi
    exact .inr ⟨rfl, rfl⟩
  | switch low ls l =>
    obtain ⟨_, -, hi⟩ := bind_eq_ok.mp h
    obtain ⟨_, -, hi⟩ := bind_eq_ok.mp hi
    cases hi
    exact .inr ⟨rfl, rfl⟩

theorem Ordered.resolve {known : Nat} {strings : List Text} {place : Text → Attempt UInt32}
    {steps : List (Labelled Text)} {is : List Instr}
    (h : Ordered known (steps.filterMap plain?) strings)
    (hr : Forall₂ (fun step i => step.resolve place = .ok i) steps is) :
    Ordered known is strings := by
  intro hle
  obtain ⟨horder, hcasts⟩ := h hle
  clear h hle
  have huses : is.filterMap Instr.string? =
      (steps.filterMap plain?).filterMap Instr.string? := by
    clear horder hcasts
    induction hr with
    | nil => rfl
    | cons hi _ ih =>
      rcases plain?_of_resolve hi with hp | ⟨hp, hs⟩
      · rw [filterMap_cons_some hp, filterMap_cons, filterMap_cons, ih]
      · rw [filterMap_cons_none hp, filterMap_cons_none hs, ih]
  refine ⟨by rw [huses, horder], fun i hi n hn => ?_⟩
  obtain ⟨step, hstep, hstep'⟩ := forall₂_exists_mem hr.flip hi
  rcases plain?_of_resolve hstep' with hp | ⟨-, hs⟩
  · exact hcasts i (mem_filterMap.mpr ⟨step, hstep, hp⟩) n hn
  · exact nomatch hs.symm.trans (string?_of_cast? hn)

theorem finish_ok {f g : Func} {locals stack : Option UInt32} (hf : f.Spelled)
    (h : BodySound u₀ u d) (hg : d.finish u f locals stack = .ok g) :
    g.Spelled ∧ g.name = f.name ∧
      ∃ is, g.code = Instr.encodeAll is ∧ Ordered u₀.strings.length is u.strings := by
  obtain ⟨⟨is, handlers⟩, hr, hg⟩ := bind_eq_ok.mp hg
  obtain ⟨maxStack, rfl⟩ : ∃ maxStack, { f with
      code := Instr.encodeAll is
      handlers
      frames := d.frames
      maxLocals := UInt32.ofNat
        (max (neededLocals f.params.length is) (locals.elim 0 UInt32.toNat))
      maxStack } = g := by
    cases stack with
    | some n => exact ⟨n, pure_eq_ok.mp hg⟩
    | none =>
      obtain ⟨n, -, hg⟩ := bind_eq_ok.mp hg
      exact ⟨n, pure_eq_ok.mp hg⟩
  obtain ⟨-, -, hr⟩ := bind_eq_ok.mp hr
  obtain ⟨is', his, hr⟩ := bind_eq_ok.mp hr
  obtain ⟨handlers', hhandlers, hr⟩ := bind_eq_ok.mp hr
  cases hr
  refine ⟨⟨hf.name, hf.params, hf.result, fun g hg => ?_, h.frames, hf.flags⟩, rfl, is, rfl,
    h.ordered.resolve (mapM_eq_ok.mp his)⟩
  -- A handler keeps its class and its kind.
  obtain ⟨form, hform, hg⟩ := forall₂_exists_mem (mapM_eq_ok.mp hhandlers).flip hg
  obtain ⟨_, -, hg⟩ := bind_eq_ok.mp hg
  obtain ⟨_, -, hg⟩ := bind_eq_ok.mp hg
  obtain ⟨_, -, hg⟩ := bind_eq_ok.mp hg
  cases hg
  exact h.handlers form hform

/-- What holds once the first bodies are read. -/
structure Assembled (u : CodeUnit) (bodies : List (List Instr)) : Prop where
  spelled : u.Spelled
  nodup : u.strings.Nodup
  code : bodies.map Instr.encodeAll = (u.functions.map Func.code).take bodies.length
  ordered : Ordered 0 bodies.flatten u.strings

theorem Assembled.complete {scope : Scope} {bodies : List (List Instr)} {p : Pending}
    (h : Assembled u bodies) (hp : p.index = bodies.length) (hbody : Lexed p.body)
    (hu : p.complete scope u = .ok u') :
    (∃ is, Assembled u' (bodies ++ [is])) ∧ u.symbols <+: u'.symbols ∧
      u'.functions.length = u.functions.length := by
  obtain ⟨f, hf, hu⟩ := bind_eq_ok.mp hu
  rw [Attempt.ofOption_eq_ok] at hf
  obtain ⟨⟨⟨a, v, d⟩, ts⟩, hitems, hu⟩ := bind_eq_ok.mp (Attempt.mapError_eq_ok_iff.mp hu)
  obtain ⟨g, hg, hu⟩ := bind_eq_ok.mp hu
  cases hu
  have hread := reading_of_items h.spelled.functions hbody .start hitems
  have hsound := hread.sound h.spelled h.nodup
  have hfs := h.spelled.functions f (mem_of_getElem? hf)
  obtain ⟨hgs, hname, is, hcode, hordered⟩ := finish_ok hfs hsound hg
  obtain ⟨hlt, hget⟩ := List.getElem?_eq_some_iff.mp hf
  refine ⟨⟨is, { spelled := ?_, nodup := hsound.nodup, code := ?_, ordered := ?_ }⟩,
    hsound.symbols, ?_⟩
  · refine { hsound.unit with functions := fun g' hg' => ?_, names := ?_ }
    · rcases mem_or_eq_of_mem_set hg' with hg' | rfl
      · exact hsound.unit.functions g' hg'
      · exact hgs
    · have hnames : (v.functions.set p.index g).map Func.name = v.functions.map Func.name := by
        rw [map_set, hname, ← map_set, hsound.functions, ← hget, set_getElem_self]
      rw [hnames]
      exact hsound.unit.names
  · have hlt' : bodies.length < (u.functions.map Func.code).length := by
      rwa [length_map, ← hp]
    rw [map_append, h.code, map_set, hsound.functions, hp, hcode, length_append,
      length_singleton, take_succ_eq_append_getElem (by rwa [length_set]),
      take_set_of_le (Nat.le_refl _), getElem_set_self]
    rfl
  · rw [flatten_append, flatten_singleton]
    exact h.ordered.append hsound.strings hordered
  · rw [length_set, hsound.functions]

/-- **Reading all bodies** gives a unit that is assembled from them. -/
theorem assembled_of_foldlM {scope : Scope} {pending : List Pending} {bodies : List (List Instr)}
    (h : Assembled u bodies) (hlength : bodies.length + pending.length = u.functions.length)
    (hindices : pending.map Pending.index = range' bodies.length pending.length)
    (hbodies : ∀ p ∈ pending, Lexed p.body)
    (hu : pending.foldlM (Pending.complete scope) u = .ok u') :
    (∃ bodies, bodies.length = u'.functions.length ∧ Assembled u' bodies) ∧
      u.symbols <+: u'.symbols := by
  induction pending generalizing u bodies with
  | nil =>
    cases hu
    exact ⟨⟨bodies, hlength, h⟩, prefix_refl _⟩
  | cons p pending ih =>
    obtain ⟨v, hv, hu⟩ := bind_eq_ok.mp hu
    rw [map_cons, length_cons, range'_succ, cons.injEq] at hindices
    obtain ⟨hp, hps⟩ := forall_mem_cons.mp hbodies
    obtain ⟨⟨is, hv'⟩, hsymbols, hfunctions⟩ := h.complete hindices.1 hp hv
    obtain ⟨hu', hsymbols'⟩ := ih hv' (by simp [hfunctions, ← hlength]; omega)
      (by simpa using hindices.2) hps hu
    exact ⟨hu', hsymbols.trans hsymbols'⟩

/-- An accepted text: its tokens, the draft of the first reading, and the unit of the second. -/
structure Parsed (source : Text) (tokens : List Token) (draft : Draft) (u : CodeUnit) : Prop where
  lexing : tokenize source = .ok tokens
  first : Yields DraftParser.unit {} tokens () draft []
  second : draft.pending.foldlM (Pending.complete draft.scope) draft.unit = .ok u

variable {source : Text} {tokens : List Token} {draft : Draft}

theorem Parsed.lexed (h : Parsed source tokens draft u) : Lexed tokens := isIdent_of_mem h.lexing

theorem Parsed.reading (h : Parsed source tokens draft u) : Reading tokens draft :=
  (reading_of_unit h.lexed h.first).1

theorem exists_parsed (h : parse source = .ok u) : ∃ tokens draft, Parsed source tokens draft u := by
  obtain ⟨tokens, htokens, h⟩ := bind_eq_ok.mp (Attempt.mapError_eq_ok_iff.mp h)
  rw [Attempt.ofExcept_eq_ok] at htokens
  obtain ⟨⟨⟨a, draft⟩, ts⟩, hdraft, h⟩ := bind_eq_ok.mp h
  obtain ⟨-, rfl⟩ := reading_of_unit (isIdent_of_mem htokens) hdraft
  exact ⟨tokens, draft, htokens, hdraft, h⟩

/-- **What an accepted text describes**: the unit is assembled from bodies, one for each function, and
has all symbols that the first reading found. -/
theorem Parsed.assembled (h : Parsed source tokens draft u) :
    (∃ bodies, bodies.length = u.functions.length ∧ Assembled u bodies) ∧
      draft.unit.symbols <+: u.symbols := by
  have hsound := h.reading.sound h.lexed
  have hstart : Assembled draft.unit [] :=
    { spelled := hsound.unit
      nodup := hsound.strings ▸ .nil
      code := rfl
      ordered := fun _ => ⟨by rw [hsound.strings]; rfl, fun _ hi => nomatch hi⟩ }
  have hlength : draft.pending.length = draft.unit.functions.length := by
    rw [← length_map Pending.index, hsound.indices, length_range]
  refine assembled_of_foldlM hstart (by simpa using hlength) ?_ hsound.bodies h.second
  rw [hsound.indices, hlength, range_eq_range']
  rfl

end Assembly

end Resumable
