import Resumable.Proofs.Attempt
import Resumable.Proofs.CodeUnit.Tables

/-!
# Units are read back

A unit is written as a header and a row of sections. `Fills` says that the sections of a row, one
after the other, make one unit out of another; `parse_encode` puts the rows of all tables together.
What is read back has the tables that were written and the pool as the tables have left it, and it
is accepted if its bodies fit that pool.
-/

namespace Resumable

open List Pool Wire

namespace CodeUnit

/-! ## The parts of a unit -/

/-- A section with its contents. -/
abbrev Part := Section × Bytes

/-- The bytes of a section. -/
def Part.bytes (part : Part) : Bytes := block part.1.id part.2

/-- The section of a table, if it has items. -/
def tablePart {α : Type} (s : Section) (w : α → StateM Pool Bytes) (items : List α) (pool : Pool) :
    List Part :=
  if items.isEmpty then [] else [(s, (Pool.vector w items pool).1)]

/-- The section of the pool, if it has strings. -/
def poolPart (pool : Pool) : List Part :=
  if pool.isEmpty then [] else [(.strings, Wire.vector name pool)]

/-- The pool when classes were written, and so on for the other tables. -/
def classPool (u : CodeUnit) : Pool := (Pool.each Pool.classDecl u.classes (Pool.ofStrings u.strings)).2
def symbolPool (u : CodeUnit) : Pool := (Pool.each Pool.symbol u.symbols u.classPool).2
def recordPool (u : CodeUnit) : Pool := (Pool.each Pool.layout u.records u.symbolPool).2

/-- The pool that is written: the strings of the unit without repetition, and behind them what the
tables refer to besides. -/
def pool (u : CodeUnit) : Pool := (Pool.each Pool.func u.functions u.recordPool).2

/-- The sections of a unit, in their order. -/
def parts (u : CodeUnit) : List Part :=
  u.custom.map (fun c => (.custom, name c.name ++ c.data)) ++
    (poolPart u.pool ++
    (tablePart .classes Pool.classDecl u.classes (Pool.ofStrings u.strings) ++
    (tablePart .symbols Pool.symbol u.symbols u.classPool ++
    (tablePart .records Pool.layout u.records u.symbolPool ++
    tablePart .functions Pool.func u.functions u.recordPool))))

theorem run_table {α : Type} (s : Section) (w : α → StateM Pool Bytes) (items : List α)
    (pool : Pool) :
    table s w items pool =
      ((tablePart s w items pool).flatMap Part.bytes, (each w items pool).2) := by
  cases items with
  | nil => rfl
  | cons a items =>
    show (block s.id _, _) = (block s.id _ ++ [], _)
    rw [append_nil]
    rfl

/-- A unit is written part by part. -/
theorem encode_eq (u : CodeUnit) :
    u.encode = u32le unitMagic ++ (u32le unitVersion ++ u.parts.flatMap Part.bytes) := by
  have htables : tables u (ofStrings u.strings) =
      ((tablePart .classes classDecl u.classes (ofStrings u.strings) ++
        (tablePart .symbols symbol u.symbols u.classPool ++
        (tablePart .records layout u.records u.symbolPool ++
        tablePart .functions func u.functions u.recordPool))).flatMap Part.bytes,
        u.pool) := by
    have h1 : _ = (_, u.classPool) := run_table .classes classDecl u.classes _
    have h2 : _ = (_, u.symbolPool) := run_table .symbols symbol u.symbols u.classPool
    have h3 : _ = (_, u.recordPool) := run_table .records layout u.records u.symbolPool
    have h4 : _ = (_, u.pool) := run_table .functions func u.functions u.recordPool
    simp only [tables, bind_apply, pure_apply, h1, h2, h3, h4,
      flatMap_append, append_assoc]
  have hpool : poolSection u.pool = (poolPart u.pool).flatMap Part.bytes := by
    unfold poolSection poolPart
    split
    · rfl
    · exact (append_nil _).symm
  have hcustom : u.custom.flatMap CustomSection.encode =
      (u.custom.map fun c => ((.custom, name c.name ++ c.data) : Part)).flatMap Part.bytes := by
    rw [flatMap_map]
    rfl
  unfold encode
  simp only [StateT.run, htables]
  rw [hpool, hcustom]
  unfold parts
  simp only [flatMap_append, append_assoc]

namespace Read

variable {c c' : Cursor}

/-! ## Contents -/

theorem payload_of_reads {u u' : CodeUnit} {s : Section} {data : Bytes}
    (h : Reads (contents u s) data u') : payload u s data = .ok u' := by
  have hrun := h [] 0
  rw [append_nil] at hrun
  unfold payload Reader.run
  rw [hrun]
  rfl

theorem size_lt_of_name {t : Text} {bs : Bytes} (h : (name t ++ bs).length < 2 ^ 32) :
    t.size < 2 ^ 32 := by
  simp only [name, length_append] at h
  unfold Text.size
  omega

theorem payload_custom (u : CodeUnit) {c : CustomSection} (hname : c.name.isUtf8)
    (hsize : (name c.name ++ c.data).length < 2 ^ 32) :
    payload u .custom (name c.name ++ c.data) = .ok { u with custom := u.custom ++ [c] } := by
  have hread := reads_name (size_lt_of_name hsize) hname c.data 0
  have hrest := reads_bytes c.data [] (0 + (name c.name).length)
  rw [append_nil] at hrest
  have hrun : (contents u .custom).run (name c.name ++ c.data) =
      (.ok { u with custom := u.custom ++ [c] },
        ⟨[], 0 + (name c.name).length + c.data.length⟩) := by
    have h := run_adapt_ok (f := SectionFault.entry).mpr (run_lift_ok.mpr hread)
    have h' := run_adapt_ok (f := SectionFault.entry).mpr
      ((run_lift_ok (r := Reader.remaining)).mpr hrest)
    exact (run_bind_ok h).trans (run_bind_ok h')
  unfold payload
  rw [hrun]
  rfl

theorem reads_pool {pool : List Text} (hnames : ∀ s ∈ pool, s.isUtf8)
    (hsize : (Wire.vector name pool).length < 2 ^ 32) :
    Reads (vector (liftM Reader.name)) (Wire.vector name pool) pool := by
  obtain ⟨hmany, hshort⟩ := length_names pool
  unfold Wire.vector at hsize ⊢
  rw [length_append] at hsize
  have hitems : Reads (Reader.times (liftM Reader.name : Reader EntryFault Text) pool.length)
      (pool.flatMap name) pool := by
    refine reads_times fun s hs => Reads.adapt (reads_name ?_ (hnames s hs)) _
    have := hshort s hs
    omega
  intro rest p
  have hn := @run_len pool.length p (pool.flatMap name ++ rest) (by omega)
    (by rw [length_append]; omega)
  unfold vector
  rw [append_assoc, run_bind_ok (run_lift_ok.mpr hn), hitems, length_append, Nat.add_assoc]

/-- Functions are read like the items of any list, with faults of their own. -/
theorem run_funcs {strings : List Text} {n index : Nat} {fs : List Func} :
    ExceptT.run (funcs strings n index) c = (.ok fs, c') ↔
      ExceptT.run (Reader.times (func strings) n) c = (.ok fs, c') := by
  induction n generalizing c c' fs index with
  | zero => constructor <;> intro h <;> cases h <;> rfl
  | succ n ih =>
    unfold funcs Reader.times
    simp only [run_bind_eq_ok, run_adapt_ok, ih]
    constructor <;> rintro ⟨f, c₁, hf, rest, c₂, hrest, h⟩ <;> cases h <;>
      exact ⟨f, c₁, hf, rest, _, hrest, rfl⟩

theorem reads_funcs {strings : List Text} {fs : List Func} {pool : Pool}
    (hpool : (Pool.vector Pool.func fs pool).2 <+: strings) (hlen : strings.length < 2 ^ 32)
    (hsize : (Pool.vector Pool.func fs pool).1.length < 2 ^ 32) (u : CodeUnit) (hu : u.strings = strings) :
    Reads (contents u .functions) (Pool.vector Pool.func fs pool).1 { u with functions := fs } := by
  obtain ⟨_, hmany, hreads⟩ := each_leaves leaves_func fs pool
  have hout : (Pool.vector Pool.func fs pool).1 = len fs.length ++ (each Pool.func fs pool).1 :=
    rfl
  rw [hout, length_append] at hsize
  subst hu
  intro rest p
  have hn := @run_len fs.length p ((each Pool.func fs pool).1 ++ rest)
    (by omega) (by rw [length_append]; omega)
  have hfs := hreads hpool hlen (by omega) rest (p + (len fs.length).length)
  rw [hout, append_assoc, length_append, ← Nat.add_assoc]
  exact (run_bind_ok (run_adapt_ok.mpr (run_lift_ok.mpr hn))).trans (run_bind_ok (run_funcs.mpr hfs))

/-! ## Rows of sections -/

/-- Sections one after the other make the last unit out of the first. Those that are not custom have
numbers that rise, from a number greater than `last`. -/
inductive Fills : (last : UInt8) → CodeUnit → List Part → CodeUnit → Prop
  | nil (last : UInt8) (u : CodeUnit) : Fills last u [] u
  | cons {last : UInt8} {u u' v : CodeUnit} {s : Section} {data : Bytes} {parts : List Part}
      (order : s = .custom ∨ last < s.id) (size : data.length < 2 ^ 32)
      (contents : payload u s data = .ok u')
      (rest : Fills (if s = .custom then last else s.id) u' parts v) :
      Fills last u ((s, data) :: parts) v

variable {u u' v : CodeUnit} {s : Section} {last last' : UInt8} {data : Bytes} {parts : List Part}
  {most : Nat}

theorem ofId?_id (s : Section) : Section.ofId? s.id = some s := by
  cases s <;> rfl

theorem ofId?_eq_some {id : UInt8} (h : Section.ofId? id = some s) : s.id = id := by
  have := find?_some h
  exact of_decide_eq_true this

theorem id_eq_custom_iff : s.id = Section.custom.id ↔ s = .custom := by
  cases s <;> decide

theorem run_placed_ok {α : Type} {fault : Nat → Fault → UnitFault} {r : Reader Fault α}
    {x : α} : ExceptT.run (placed fault r) c = (.ok x, c') ↔
      ExceptT.run r c = (.ok x, c') := by
  unfold placed ExceptT.run
  dsimp only
  rcases r c with ⟨f | a, c₁⟩
  · constructor <;> intro h <;> cases h
  · constructor <;> intro h <;> cases h <;> rfl

/-- What happens to a section whose number was read. -/
theorem run_section {id : UInt8} :
    ExceptT.run (do
      let size ← placed .sectionSize Reader.u32
      let data ← placed .sectionData (Reader.bytes size.toNat)
      match Section.ofId? id with
      | none => throw (.unknownSection id)
      | some s => do
        let u ← sections.liftExcept (payload u s data)
        sections most (if id = Section.custom.id then last else id) u) c = (.ok v, c') ↔
      ∃ s size data u' c₁ c₂, s.id = id ∧ ExceptT.run Reader.u32 c = (.ok size, c₁) ∧
        ExceptT.run (Reader.bytes size.toNat) c₁ = (.ok data, c₂) ∧ payload u s data = .ok u' ∧
        ExceptT.run (sections most (if s = .custom then last else s.id) u') c₂ = (.ok v, c') := by
  simp only [run_bind_eq_ok, run_placed_ok]
  constructor
  · rintro ⟨size, c₁, hsize, data, c₂, hdata, h⟩
    split at h
    next => cases h
    next s hs =>
      obtain ⟨u', c₃, hu', h⟩ := run_bind_eq_ok.mp h
      obtain rfl := ofId?_eq_some hs
      cases hpay : payload u s data with
      | error f =>
        rw [hpay] at hu'
        cases hu'
      | ok u'' =>
        rw [hpay] at hu'
        cases hu'
        simp only [id_eq_custom_iff] at h
        exact ⟨s, size, data, u', c₁, c₂, rfl, hsize, hdata, hpay, h⟩
  · rintro ⟨s, size, data, u', c₁, c₂, rfl, hsize, hdata, hpay, h⟩
    refine ⟨size, c₁, hsize, data, c₂, hdata, ?_⟩
    simp only [ofId?_id, id_eq_custom_iff, hpay]
    exact h

/-- What happens to the first of the sections that are left. -/
theorem run_sections_cons {id : UInt8} {rest : Bytes} {p : Nat} :
    ExceptT.run (sections (most + 1) last u) ⟨id :: rest, p⟩ = (.ok v, c) ↔
      ∃ s size data u' c₁ c₂, s.id = id ∧ (s = .custom ∨ last < s.id) ∧
        ExceptT.run Reader.u32 ⟨rest, p + 1⟩ = (.ok size, c₁) ∧
        ExceptT.run (Reader.bytes size.toNat) c₁ = (.ok data, c₂) ∧ payload u s data = .ok u' ∧
        ExceptT.run (sections most (if s = .custom then last else s.id) u') c₂ = (.ok v, c) := by
  rw [sections, run_get_bind]
  simp only [run_get_bind, run_set_bind]
  by_cases horder : (decide (id ≠ Section.custom.id) && decide (id ≤ last)) = true
  · rw [if_pos horder]
    simp only [Bool.and_eq_true, decide_eq_true_eq] at horder
    constructor
    · intro h
      cases h
    · rintro ⟨s, _, _, _, _, _, rfl, h, _⟩
      rw [← id_eq_custom_iff] at h
      exact absurd h (not_or.mpr ⟨horder.1, UInt8.not_lt.mpr horder.2⟩)
  · rw [if_neg horder]
    refine Iff.trans run_section ?_
    simp only [Bool.and_eq_true, decide_eq_true_eq, not_and] at horder
    refine exists_congr fun s => exists_congr fun size => exists_congr fun data =>
      exists_congr fun u' => exists_congr fun c₁ => exists_congr fun c₂ => ?_
    refine and_congr_right fun hid => ⟨fun h => ⟨?_, h⟩, fun h => h.2⟩
    by_cases hs : s = .custom
    · exact .inl hs
    · exact .inr (UInt8.not_le.mp (hid ▸ horder fun h => hs (id_eq_custom_iff.mp (hid.trans h))))

/-- Sections that fill a unit are read one after the other. -/
theorem Fills.run_sections (h : Fills last u parts v) (hmost : parts.length ≤ most)
    (p : Nat) : ∃ c, ExceptT.run (sections most last u) ⟨parts.flatMap Part.bytes, p⟩ = (.ok v, c) := by
  induction h generalizing most p with
  | nil last u => cases most <;> exact ⟨_, rfl⟩
  | @cons last u u' v s data parts order size hpay rest ih =>
    cases most with
    | zero => simp at hmost
    | succ most =>
      have hsize : ((UInt32.ofNat data.length).toNat : Int) = data.length := by
        rw [UInt32.toNat_ofNat_of_lt' size]
      obtain ⟨c, hc⟩ := ih (Nat.le_of_succ_le_succ hmost)
        (p + 1 + (len data.length).length + data.length)
      have hbytes : ((s, data) :: parts).flatMap Part.bytes =
          s.id :: (len data.length ++ (data ++ parts.flatMap Part.bytes)) := by
        simp only [flatMap_cons, Part.bytes, block, cons_append, append_assoc]
      rw [hbytes]
      refine ⟨c, run_sections_cons.mpr ⟨s, _, data, u', _, _, rfl, order,
        reads_u32 _ _ _, ?_, hpay, hc⟩⟩
      rw [hsize]
      exact reads_bytes data _ _

/-- A unit that was read was filled by sections. -/
theorem exists_fills
    (h : ExceptT.run (sections most last u) c = (.ok v, c')) : ∃ parts, Fills last u parts v := by
  induction most generalizing last u c with
  | zero =>
    cases h
    exact ⟨[], .nil _ _⟩
  | succ most ih =>
    obtain ⟨_ | ⟨id, rest⟩, p⟩ := c
    · cases h
      exact ⟨[], .nil _ _⟩
    · obtain ⟨s, size, data, u', c₁, c₂, -, horder, -, hdata, hpay, h⟩ := run_sections_cons.mp h
      obtain ⟨parts, hparts⟩ := ih h
      have hlen : data.length < 2 ^ 32 := (run_bytes_eq_ok.mp hdata).2.1 ▸ size.toNat_lt
      exact ⟨_, .cons horder hlen hpay hparts⟩

/-! ## Filling a unit with its own parts -/

theorem Fills.mono (h : Fills last u parts v) (hle : last' ≤ last) : Fills last' u parts v := by
  induction h generalizing last' with
  | nil last u => exact .nil last' u
  | @cons last u u' v s data parts order size hpay rest ih =>
    refine .cons (order.imp_right fun h => UInt8.lt_of_le_of_lt hle h) size hpay ?_
    by_cases hs : s = .custom
    · rw [if_pos hs] at ih ⊢
      exact ih hle
    · rw [if_neg hs] at rest ⊢
      exact rest

/-- A table that is written, or left out because it has no items. -/
theorem Fills.table {α : Type} {w : α → StateM Pool Bytes} {items : List α} {pool : Pool}
    (hs : s ≠ .custom) (hlt : last < s.id) (hnone : items = [] → u = u')
    (hsize : ∀ part ∈ tablePart s w items pool, part.2.length < 2 ^ 32)
    (hpay : (Pool.vector w items pool).1.length < 2 ^ 32 →
      payload u s (Pool.vector w items pool).1 = .ok u')
    (h : Fills s.id u' parts v) : Fills last u (tablePart s w items pool ++ parts) v := by
  cases items with
  | nil =>
    rw [hnone rfl]
    exact h.mono (UInt8.le_of_lt hlt)
  | cons a items =>
    have hlen := hsize (s, (Pool.vector w (a :: items) pool).1) (mem_singleton.mpr rfl)
    refine .cons (.inr hlt) hlen (hpay hlen) ?_
    rw [if_neg hs]
    exact h

/-- The pool, which is left out if it is empty. -/
theorem Fills.strings {pool : Pool} (hnames : ∀ s ∈ pool, s.isUtf8)
    (hsize : ∀ part ∈ poolPart pool, part.2.length < 2 ^ 32) (hu : u.strings = [])
    (h : Fills Section.strings.id { u with strings := pool } parts v) :
    Fills 0 u (poolPart pool ++ parts) v := by
  cases pool with
  | nil =>
    have : u = { u with strings := [] } := hu ▸ rfl
    rw [this]
    exact h.mono (by decide)
  | cons s pool =>
    have hlen := hsize (.strings, Wire.vector name (s :: pool)) (mem_singleton.mpr rfl)
    exact .cons (.inr (by decide)) hlen (payload_of_reads ((reads_pool hnames hlen).adapt _).map) h

theorem Fills.custom {cs : List CustomSection} (hnames : ∀ c ∈ cs, c.name.isUtf8)
    (hsize : ∀ c ∈ cs, (name c.name ++ c.data).length < 2 ^ 32)
    (h : Fills last { u with custom := u.custom ++ cs } parts v) :
    Fills last u (cs.map (fun c => (.custom, name c.name ++ c.data)) ++ parts) v := by
  induction cs generalizing u with
  | nil =>
    rw [append_nil] at h
    exact h
  | cons c cs ih =>
    have hc := hsize c mem_cons_self
    refine .cons (.inl rfl) hc (payload_custom u (hnames c mem_cons_self) hc) ?_
    refine ih (fun c' h' => hnames c' (mem_cons_of_mem c h'))
      (fun c' h' => hsize c' (mem_cons_of_mem c h')) ?_
    show Fills last { u with custom := u.custom ++ [c] ++ cs } parts v
    rw [append_assoc]
    exact h

end Read

/-! ## Whole units -/

/-- A unit whose sections can be counted by 32 bits and whose names are UTF-8. -/
structure Writable (u : CodeUnit) : Prop where
  sizes : ∀ part ∈ u.parts, part.2.length < 2 ^ 32
  names : ∀ s ∈ u.pool, s.isUtf8
  custom : ∀ c ∈ u.custom, c.name.isUtf8

/-- The tables extend the pool one after the other. -/
theorem pool_prefixes (u : CodeUnit) :
    ofStrings u.strings <+: u.classPool ∧ u.classPool <+: u.symbolPool ∧
      u.symbolPool <+: u.recordPool ∧ u.recordPool <+: u.pool :=
  ⟨(each_leaves leaves_classDecl _ _).1, (each_leaves leaves_symbol _ _).1,
    (each_leaves leaves_layout _ _).1, (each_leaves leaves_func _ _).1⟩

theorem length_poolPart {pool : Pool} (h : ∀ part ∈ poolPart pool, part.2.length < 2 ^ 32) :
    pool.length < 2 ^ 32 := by
  cases pool with
  | nil => decide
  | cons s pool =>
    have hlen := h (.strings, Wire.vector name (s :: pool)) (mem_singleton.mpr rfl)
    have hmany := (length_names (s :: pool)).1
    simp only [Wire.vector, length_append] at hlen
    omega

variable {u : CodeUnit}

open Read in
/-- The parts of a unit fill the empty unit with its tables and its pool. -/
theorem Writable.fills (hu : u.Writable) : Fills 0 {} u.parts { u with strings := u.pool } := by
  obtain ⟨_, h1, h2, h3⟩ := u.pool_prefixes
  have hsizes := hu.sizes
  unfold parts at hsizes ⊢
  simp only [forall_mem_append, forall_mem_map] at hsizes
  obtain ⟨hcustom, hstrings, hclasses, hsymbols, hrecords, hfunctions⟩ := hsizes
  have hlen := length_poolPart hstrings
  refine .custom hu.custom hcustom (.strings hu.names hstrings rfl ?_)
  have hread {α : Type} {w : α → StateM Pool Bytes} {r : List Text → Reader EntryFault α}
      (hw : ∀ a pool, Pool.Leaves pool (w a pool) r a) {items : List α} {pool : Pool}
      (hpool : (each w items pool).2 <+: u.pool)
      (hsize : (Pool.vector w items pool).1.length < 2 ^ 32) :
      Reads (ExceptT.adapt SectionFault.entry (Read.vector (r u.pool)))
        (Pool.vector w items pool).1 items :=
    ((leaves_vector hw items pool).reads hpool hlen hsize).adapt _
  refine .table (by decide) (by decide) (fun h => h ▸ rfl) hclasses (fun hsize =>
    payload_of_reads (hread leaves_classDecl (h1.trans (h2.trans h3)) hsize).map) ?_
  refine .table (by decide) (by decide) (fun h => h ▸ rfl) hsymbols (fun hsize =>
    payload_of_reads (hread leaves_symbol (h2.trans h3) hsize).map) ?_
  refine .table (by decide) (by decide) (fun h => h ▸ rfl) hrecords (fun hsize =>
    payload_of_reads (hread leaves_layout h3 hsize).map) ?_
  rw [← append_nil (tablePart .functions _ _ _)]
  exact .table (by decide) (by decide) (fun h => h ▸ rfl) hfunctions (fun hsize =>
    payload_of_reads (reads_funcs (prefix_refl _) hlen hsize _ rfl)) (.nil _ _)

theorem length_parts_le (u : CodeUnit) : u.parts.length ≤ u.encode.length := by
  have := @length_le_flatMap _ Part.bytes u.parts fun _ _ => Nat.succ_pos _
  rw [encode_eq, length_append, length_append]
  omega

open Read in
/-- **A unit is read back from its bytes,** with the pool that was written, if its bodies fit that
pool. -/
theorem Writable.parse_encode (hu : u.Writable) :
    parse u.encode = (do
      ({ u with strings := u.pool } : CodeUnit).checkBodies
      return { u with strings := u.pool }) := by
  obtain ⟨c, hsections⟩ := hu.fills.run_sections u.length_parts_le 8
  have hwhole : ExceptT.run (whole u.encode.length) ⟨u.encode, 0⟩ =
      (.ok { u with strings := u.pool }, c) := by
    unfold whole
    rw [encode_eq, run_bind_ok (run_placed_ok.mpr (reads_u32le _ _ _)), if_neg (by simp),
      run_bind_ok (run_placed_ok.mpr (reads_u32le _ _ _)), if_neg (by simp), ← encode_eq]
    exact hsections
  unfold parse Reader.run
  rw [hwhole]
  rfl

end CodeUnit

end Resumable
