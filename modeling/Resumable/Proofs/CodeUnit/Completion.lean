import Resumable.Proofs.CodeUnit.Reencoding

/-!
# Writing a unit completes its pool

Tables name strings, and those that the pool lacks are put behind it when they are first written. So
the pool that is written depends on nothing but the row of all names that the tables hold, in the order
in which they are written. A unit with a complete pool is written as it is: every name is found where
it was put, and the bytes are the same.
-/

namespace Resumable

open List Pool Wire

/-! ## Names in the order of their use -/

/-- A name that may be absent. -/
def Text.given (s : Text) : List Text := if s.isEmpty then [] else [s]

def Ty.names : Ty → List Text
  | .ref cls => [cls]
  | _ => []

def ClassDecl.names (c : ClassDecl) : List Text := c.name :: c.super.given

def Symbol.names (s : Symbol) : List Text :=
  s.owner.given ++ s.name :: (s.params.flatMap Ty.names ++ s.result.names)

def Layout.names (l : Layout) : List Text := l.function :: l.fields.flatMap Ty.names

def FrameEntry.names (f : FrameEntry) : List Text :=
  f.locals.flatMap Ty.names ++ f.stack.flatMap Ty.names

def Func.names (f : Func) : List Text :=
  f.name :: (f.params.flatMap Ty.names ++ f.result.names ++ f.handlers.flatMap (·.cls.given) ++
    f.frames.flatMap FrameEntry.names)

namespace CodeUnit

/-- The names that the tables of a unit hold. -/
def names (u : CodeUnit) : List Text :=
  u.classes.flatMap ClassDecl.names ++ u.symbols.flatMap Symbol.names ++
    u.records.flatMap Layout.names ++ u.functions.flatMap Func.names

/-- The names that the pool lacks, each once, in the order of their first use. -/
def missing (u : CodeUnit) : List Text := (u.names.filter (· ∉ u.strings)).eraseDups

/-- The unit with all names in its pool. -/
def completed (u : CodeUnit) : CodeUnit := { u with strings := u.strings ++ u.missing }

end CodeUnit

namespace Pool

/-! ## Pools that take up names -/

/-- The pool when some names were written. -/
def internAll (names : List Text) (pool : Pool) : Pool :=
  names.foldl (fun pool s => (intern s pool).2) pool

theorem internAll_append (xs ys : List Text) (pool : Pool) :
    internAll (xs ++ ys) pool = internAll ys (internAll xs pool) :=
  foldl_append

theorem internAll_grows (names : List Text) (pool : Pool) : pool <+: internAll names pool := by
  obtain ⟨more, heq, _⟩ := foldl_intern names pool
  exact ⟨more, heq.symm⟩

/-- Names that the pool lacks are put behind it, each once. -/
theorem internAll_eq (names : List Text) (pool : Pool) :
    internAll names pool = pool ++ (names.filter (· ∉ pool)).eraseDups := by
  induction names generalizing pool with
  | nil => exact (append_nil pool).symm
  | cons s names ih =>
    show internAll names (intern s pool).2 = _
    by_cases hs : s ∈ pool
    · rw [intern_of_mem hs, ih, filter_cons_of_neg (by simpa using hs)]
    · have hfilter : names.filter (· ∉ pool ++ [s]) =
          names.filter fun t => !t == s && decide (t ∉ pool) :=
        filter_congr fun t _ => by by_cases ht : t = s <;> simp [ht]
      rw [intern_of_not_mem hs, ih, filter_cons_of_pos (by simpa using hs),
        eraseDups_cons, append_assoc, filter_filter, hfilter]
      rfl

theorem internAll_nodup {names : List Text} {pool : Pool} (h : pool.Nodup) :
    (internAll names pool).Nodup := by
  obtain ⟨more, heq, _, hnodup, _⟩ := foldl_intern names pool
  show (names.foldl _ pool).Nodup
  rw [heq]
  exact hnodup h

theorem mem_internAll {names : List Text} {pool : Pool} {s : Text} (h : s ∈ internAll names pool) :
    s ∈ pool ∨ s ∈ names := by
  rw [internAll_eq, mem_append, mem_eraseDups] at h
  exact h.imp_right fun h => (mem_filter.mp h).1

/-! ## Writers -/

/-- A writer takes up some names in their order. It does the same with every pool that begins with the
one it leaves, and does not change that pool. -/
structure Collects {α : Type} (w : StateM Pool α) (names : List Text) : Prop where
  pool : ∀ pool, (w pool).2 = internAll names pool
  again : ∀ {pool pool' : Pool}, (w pool).2 <+: pool' → w pool' = ((w pool).1, pool')

namespace Collects

variable {α β : Type} {w : StateM Pool α} {k : α → StateM Pool β} {xs ys zs : List Text}

theorem pure (a : α) : Collects (Pure.pure a) [] :=
  ⟨fun _ => rfl, fun _ => rfl⟩

theorem bind (hw : Collects w xs) (hk : ∀ a, Collects (k a) ys) : Collects (w >>= k) (xs ++ ys) where
  pool pool := by
    show (k (w pool).1 (w pool).2).2 = _
    rw [(hk _).pool, hw.pool, internAll_append]
  again {pool pool'} h := by
    have hgrows : (w pool).2 <+: (k (w pool).1 (w pool).2).2 := by
      rw [(hk _).pool]
      exact internAll_grows ys _
    show k (w pool').1 (w pool').2 = _
    rw [hw.again (hgrows.trans h)]
    exact (hk _).again h

theorem map {g : α → β} (hw : Collects w xs) : Collects (do return g (← w)) xs := by
  have := hw.bind fun a => Collects.pure (g a)
  rwa [append_nil] at this

end Collects

/-- The first place of a string does not change when the pool grows at its end. -/
theorem collects_intern (s : Text) : Collects (intern s) [s] where
  pool _ := rfl
  again {pool pool'} h := by
    cases hk : pool.findIdx? (· = s) with
    | some i =>
      have hintern : intern s pool = (UInt32.ofNat i, pool) := by rw [intern, hk]
      rw [hintern] at h ⊢
      obtain ⟨more, rfl⟩ := h
      have hk' : (pool ++ more).findIdx? (· = s) = some i := by
        rw [findIdx?_append, hk]
        rfl
      rw [intern, hk']
    | none =>
      have hintern : intern s pool = (UInt32.ofNat pool.length, pool ++ [s]) := by rw [intern, hk]
      rw [hintern] at h ⊢
      obtain ⟨more, rfl⟩ := h
      have hk' : (pool ++ [s] ++ more).findIdx? (· = s) = some pool.length := by
        rw [findIdx?_append, findIdx?_append, hk]
        simp
      rw [intern, hk']

theorem collects_string (s : Text) : Collects (string s) [s] := (collects_intern s).map

theorem collects_optional (s : Text) : Collects (optional s) s.given := by
  unfold optional Text.given
  split
  · exact .pure _
  · exact (collects_intern s).map

theorem collects_type (t : Ty) : Collects (type t) t.names := by
  cases t with
  | ref cls => exact (collects_string cls).map
  | _ => exact .pure _

theorem collects_each {α : Type} {w : α → StateM Pool Bytes} {names : α → List Text}
    (hw : ∀ a, Collects (w a) (names a)) (items : List α) :
    Collects (each w items) (items.flatMap names) := by
  induction items with
  | nil => exact .pure _
  | cons a items ih => exact (hw a).bind fun _ => ih.map

theorem collects_vector {α : Type} {w : α → StateM Pool Bytes} {names : α → List Text}
    (hw : ∀ a, Collects (w a) (names a)) (items : List α) :
    Collects (vector w items) (items.flatMap names) :=
  (collects_each hw items).map

theorem collects_types (ts : List Ty) : Collects (types ts) (ts.flatMap Ty.names) :=
  collects_vector collects_type ts

/-! ## Entries of tables -/

theorem collects_classDecl (c : ClassDecl) : Collects (classDecl c) c.names :=
  (collects_string c.name).bind fun _ => (collects_optional c.super).map

theorem collects_symbol (s : Symbol) : Collects (symbol s) s.names :=
  (collects_optional s.owner).bind fun _ => (collects_string s.name).bind fun _ =>
    (collects_types s.params).bind fun _ => (collects_type s.result).map

theorem collects_layout (l : Layout) : Collects (layout l) l.names :=
  (collects_string l.function).bind fun _ => (collects_types l.fields).map

theorem collects_handler (h : Handler) : Collects (handler h) h.cls.given :=
  (collects_optional h.cls).map

theorem collects_frame (f : FrameEntry) : Collects (frame f) f.names :=
  (collects_types f.locals).bind fun _ => (collects_types f.stack).map

theorem collects_func (f : Func) : Collects (func f) f.names := by
  have h : Collects (func f) ([f.name] ++ (f.params.flatMap Ty.names ++ (f.result.names ++
      (f.handlers.flatMap (·.cls.given) ++ f.frames.flatMap FrameEntry.names)))) :=
    (collects_string f.name).bind fun _ => (collects_types f.params).bind fun _ =>
      (collects_type f.result).bind fun _ => (collects_vector collects_handler f.handlers).bind fun _ =>
        (collects_vector collects_frame f.frames).map
  simpa only [Func.names, append_assoc, singleton_append] using h

end Pool

namespace CodeUnit

variable {u : CodeUnit}

/-! ## Units -/

/-- The pools that the tables leave, one after the other. -/
theorem pool_eq_internAll (u : CodeUnit) : u.pool = internAll u.names (ofStrings u.strings) := by
  unfold pool recordPool symbolPool classPool names
  rw [(collects_each collects_func _).pool, (collects_each collects_layout _).pool,
    (collects_each collects_symbol _).pool, (collects_each collects_classDecl _).pool]
  simp only [internAll_append]

/-- **The pool that is written,** if no string stands twice in that of the unit. -/
theorem pool_eq_completed (h : u.strings.Nodup) : u.pool = u.completed.strings := by
  rw [pool_eq_internAll, ofStrings_eq_self h, internAll_eq]
  rfl

theorem completed_nodup (h : u.strings.Nodup) : u.completed.strings.Nodup := by
  rw [← pool_eq_completed h, pool_eq_internAll, ofStrings_eq_self h]
  exact internAll_nodup h

/-- A table that is written with a pool which begins with the one it left. -/
theorem tablePart_again {α : Type} {w : α → StateM Pool Bytes} {names : α → List Text}
    (hw : ∀ a, Collects (w a) (names a)) (s : Section) (items : List α) (pool : Pool) {pool' : Pool}
    (h : (each w items pool).2 <+: pool') :
    tablePart s w items pool' = tablePart s w items pool ∧ (each w items pool').2 = pool' := by
  have hvector := (collects_vector hw items).again h
  have heach := (collects_each hw items).again h
  unfold tablePart
  rw [hvector, heach]
  exact ⟨rfl, rfl⟩

/-- **A unit whose pool has been completed has the same bytes.** -/
theorem encode_completed (h : u.strings.Nodup) : u.completed.encode = u.encode := by
  obtain ⟨_, h1, h2, h3⟩ := u.pool_prefixes
  have hstart : ofStrings u.completed.strings = u.pool := by
    rw [ofStrings_eq_self (completed_nodup h), pool_eq_completed h]
  obtain ⟨hclasses, hclasses'⟩ := tablePart_again collects_classDecl .classes
    u.classes (ofStrings u.strings) (h1.trans (h2.trans h3))
  obtain ⟨hsymbols, hsymbols'⟩ := tablePart_again collects_symbol .symbols
    u.symbols u.classPool (h2.trans h3)
  obtain ⟨hrecords, hrecords'⟩ := tablePart_again collects_layout .records
    u.records u.symbolPool h3
  obtain ⟨hfunctions, hfunctions'⟩ := tablePart_again collects_func .functions
    u.functions u.recordPool (prefix_refl u.pool)
  have hc : u.completed.classPool = u.pool := by
    rw [← hclasses', ← hstart]
    rfl
  have hs : u.completed.symbolPool = u.pool := by
    rw [symbolPool, hc]
    exact hsymbols'
  have hr : u.completed.recordPool = u.pool := by
    rw [recordPool, hs]
    exact hrecords'
  have hp : u.completed.pool = u.pool := by
    rw [pool, hr]
    exact hfunctions'
  have hparts : u.completed.parts = u.parts := by
    unfold parts
    rw [hstart, hc, hs, hr, hp]
    show _ ++ (_ ++ (tablePart .classes _ u.classes _ ++ (tablePart .symbols _ u.symbols _ ++
      (tablePart .records _ u.records _ ++ tablePart .functions _ u.functions _)))) = _
    rw [hclasses, hsymbols, hrecords, hfunctions]
    rfl
  rw [encode_eq, encode_eq, hparts]

/-- **Units are read back as they were written, with a complete pool.** -/
theorem parse_encode_completed (hnodup : u.strings.Nodup)
    (hnames : ∀ s ∈ u.strings ++ u.names, s.isUtf8) (hcustom : ∀ c ∈ u.custom, c.name.isUtf8)
    (hsizes : ∀ part ∈ u.parts, part.2.length < 2 ^ 32)
    (hbodies : ∀ f ∈ u.functions, ∃ is, u.bodyOf f = .ok is) :
    parse u.encode = .ok u.completed ∧ u.completed.encode = u.encode := by
  have hpool := pool_eq_completed hnodup
  have hutf8 : ∀ s ∈ u.pool, s.isUtf8 := by
    intro s hs
    rw [pool_eq_internAll, Pool.ofStrings_eq_self hnodup] at hs
    exact hnames s (List.mem_append.mpr (Pool.mem_internAll hs))
  have hchecked := checkBodies_eq_ok.mpr hbodies
  have hwritable : u.Writable := ⟨hsizes, hutf8, hcustom⟩
  refine ⟨?_, encode_completed hnodup⟩
  rw [hwritable.parse_encode, hpool]
  refine bind_eq_ok.mpr ⟨(), ?_, rfl⟩
  -- Bodies find their strings where they were, since the pool grows at its end.
  refine checkBodies_of_strings hchecked fun n hn => ?_
  obtain ⟨s, hs⟩ := exists_item?_iff.mpr (hn.lt hchecked)
  rw [hs]
  exact item?_mono (List.prefix_append u.strings u.missing) hs

/-- A unit with names in all of its tables, of which the pool has none. -/
def letterUnit : CodeUnit where
  strings := ["greeting"]
  classes := [⟨"Reply", ∅⟩, ⟨"Late", "Reply"⟩]
  symbols := [⟨"Mail", "send", [.ref "Reply", .int], .void⟩]
  records := [⟨"f", 1, [.ref "Late"]⟩]
  functions := [
    { name := "f", result := .ref "String", code := [0x02, 0x00, 0x51]
      handlers := [⟨0, 1, 1, "Late", 0, 0⟩], frames := [⟨1, [], [.ref "Object"]⟩], maxStack := 1 }]
  custom := [⟨"note", [0x01, 0x02]⟩]

theorem parse_encode_completed_letter :
    letterUnit.missing = ["Reply", "Late", "Mail", "send", "f", "String", "Object"] ∧
      parse letterUnit.encode = .ok letterUnit.completed ∧
      letterUnit.completed.encode = letterUnit.encode := by
  have hbody : letterUnit.checkBodies = .ok () := by decide +kernel
  refine ⟨by decide +kernel, parse_encode_completed (by decide) ?_ ?_ ?_ (checkBodies_eq_ok.mp hbody)⟩
  · decide +kernel
  · decide +kernel
  · decide +kernel

end CodeUnit

end Resumable
