import Resumable.Proofs.Assembly.Words

/-!
# The first reading of a listing

The head of a listing gives back its classes, symbols and records, each symbol under the identifier
that is made of its index, and the heads of the functions; the bodies are left for the second reading.
-/

namespace Resumable

open List

namespace Assembly

open DraftParser Listing Token

variable {rest : List Word} {d : Draft} {ts : List Token}

/-! ## Steps -/

/-- Reading on from the draft `d` with the tokens `ts` comes, `n` fields later, to reading on from `d'`
with `ts'`. -/
structure Advances (n : Nat) (d : Draft) (ts : List Token) (d' : Draft) (ts' : List Token) : Prop where
  shorter : n + ts'.length ≤ ts.length
  yields_iff : ∀ (most : Nat) (r : Draft) (rest : List Token),
    Yields (DraftParser.fields (most + n)) d ts () r rest ↔
      Yields (DraftParser.fields most) d' ts' () r rest

theorem Advances.refl (d : Draft) (ts : List Token) : Advances 0 d ts d ts :=
  ⟨(Nat.zero_add _).le, fun _ _ _ => Iff.rfl⟩

theorem Advances.trans {m n : Nat} {d' d'' : Draft} {ts' ts'' : List Token}
    (h : Advances m d ts d' ts') (h' : Advances n d' ts' d'' ts'') :
    Advances (n + m) d ts d'' ts'' := by
  refine ⟨?_, fun most r rest => ?_⟩
  · have hm := h.shorter
    have hn := h'.shorter
    omega
  · rw [← Nat.add_assoc, h.yields_iff, h'.yields_iff]

/-- The production that reads a field with a first word. -/
def fieldOf (name : Text) : DraftParser Unit :=
  if name = "class" then DraftParser.classDecl
  else if name = "import" then DraftParser.importDecl
  else if name = "record" then DraftParser.record
  else DraftParser.function

/-- The first words of fields. -/
def fieldNames : List Text := ["class", "import", "record", "func"]

/-- A field is read by the production for its first word. -/
theorem yields_fields_succ {name : Text} (hname : name ∈ fieldNames) {m n : Nat} {most : Nat} {r : Draft}
    {ts' : List Token} :
    Yields (fields (most + 1)) d (⟨.lparen, "(", m⟩ :: ⟨.ident, name, n⟩ :: ts) () r ts' ↔
      Yields (fieldOf name >>= fun _ => fields most) d
        (⟨.lparen, "(", m⟩ :: ⟨.ident, name, n⟩ :: ts) () r ts' := by
  have hfield : field.run d (⟨.lparen, "(", m⟩ :: ⟨.ident, name, n⟩ :: ts) =
      (fieldOf name).run d (⟨.lparen, "(", m⟩ :: ⟨.ident, name, n⟩ :: ts) := by
    simp only [fieldNames, mem_cons, not_mem_nil, or_false] at hname
    rcases hname with rfl | rfl | rfl | rfl <;> rfl
  show (field.run d (⟨.lparen, "(", m⟩ :: ⟨.ident, name, n⟩ :: ts) >>= _) = _ ↔
    ((fieldOf name).run d (⟨.lparen, "(", m⟩ :: ⟨.ident, name, n⟩ :: ts) >>= _) = _
  rw [hfield]

theorem advances_field {name : Text} {ws : List Word} {d' : Draft} {mid : List Token}
    (hname : name ∈ fieldNames) (hts : ts.map word = form name ws ++ rest)
    (hmid : mid.map word = rest) (hfield : Yields (fieldOf name) d ts () d' mid) :
    Advances 1 d ts d' mid := by
  refine ⟨?_, fun most r rest => ?_⟩
  · have h := congrArg length hts
    rw [← hmid] at h
    simp only [form, length_map, length_append, length_cons] at h
    omega
  · obtain ⟨m, n, ts₁, rfl, -⟩ := exists_of_form hts
    rw [yields_fields_succ hname, yields_bind_of hfield]

theorem yields_fields_closing {ts' : List Token} {line : Nat} (most : Nat) :
    Yields (fields (most + 1)) d (⟨.rparen, ")", line⟩ :: ts') () d ts' := by
  rw [fields]
  refine Yields.bind (yields_lift.mpr ⟨Parser.gives_peek.mpr ⟨rfl, _, rfl⟩, rfl⟩) ?_
  rw [if_pos rfl]
  exact yields_lift.mpr ⟨Parser.gives_close.mpr ⟨_, rfl, rfl⟩, rfl⟩

/-! ## Tables -/

theorem advances_classes {cs : List ClassDecl} (hcs : ∀ c ∈ cs, c.Spelled)
    (hts : ts.map word = cs.flatMap classWords ++ rest) :
    ∃ mid, mid.map word = rest ∧
      Advances cs.length d ts { d with unit.classes := d.unit.classes ++ cs } mid := by
  induction cs generalizing d ts with
  | nil => exact ⟨ts, hts, by rw [append_nil]; exact .refl d ts⟩
  | cons c cs ih =>
    obtain ⟨hc, hcs⟩ := forall_mem_cons.mp hcs
    rw [flatMap_cons, append_assoc] at hts
    obtain ⟨mid, hread, hmid⟩ := takes_classDecl (d := d) hc hts
    obtain ⟨ts', hts', h⟩ := ih hcs hmid
    refine ⟨ts', hts', ?_⟩
    simpa using (advances_field (by simp [fieldNames]) hts hmid hread).trans h

theorem advances_records {ls : List Layout} (hls : ∀ l ∈ ls, l.Spelled)
    (hts : ts.map word = ls.flatMap layoutWords ++ rest) :
    ∃ mid, mid.map word = rest ∧
      Advances ls.length d ts { d with unit.records := d.unit.records ++ ls } mid := by
  induction ls generalizing d ts with
  | nil => exact ⟨ts, hts, by rw [append_nil]; exact .refl d ts⟩
  | cons l ls ih =>
    obtain ⟨hl, hls⟩ := forall_mem_cons.mp hls
    rw [flatMap_cons, append_assoc] at hts
    obtain ⟨mid, hread, hmid⟩ := takes_record (d := d) hl hts
    obtain ⟨ts', hts', h⟩ := ih hls hmid
    refine ⟨ts', hts', ?_⟩
    simpa using (advances_field (by simp [fieldNames]) hts hmid hread).trans h

/-- The identifiers of the chosen numbers below `count`, with these numbers. -/
def numbered (id : Nat → Text) (chosen : Nat → Bool) (count : Nat) : List (Text × UInt32) :=
  ((List.range count).filter chosen).map fun i => (id i, UInt32.ofNat i)

section

variable {id : Nat → Text} {chosen : Nat → Bool} {count i : Nat}

theorem numbered_succ : numbered id chosen (count + 1) =
    numbered id chosen count ++ if chosen count then [(id count, UInt32.ofNat count)] else [] := by
  simp only [numbered, range_succ, filter_append, map_append]
  cases h : chosen count <;> simp [h]

theorem lookup_numbered_of_le (hid : Function.Injective id) (h : count ≤ i) :
    (numbered id chosen count).lookup (id i) = none := by
  rw [lookup_eq_none_iff]
  intro q hq
  obtain ⟨j, hj, rfl⟩ := mem_map.mp hq
  have hj := mem_range.mp (mem_filter.mp hj).1
  rw [bne_iff_ne]
  intro hij
  have := hid hij
  omega

theorem lookup_numbered (hid : Function.Injective id) (h : i < count) (hi : chosen i) :
    (numbered id chosen count).lookup (id i) = some (UInt32.ofNat i) := by
  induction count with
  | zero => cases h
  | succ count ih =>
    rw [numbered_succ, lookup_append]
    rcases Nat.lt_succ_iff_lt_or_eq.mp h with h | rfl
    · rw [ih h]
      rfl
    · rw [lookup_numbered_of_le hid (Nat.le_refl _), if_pos hi]
      simp

end

theorem symbolId_injective : Function.Injective symbolId := fun _ _ h =>
  Text.ofNat_injective (Text.ext_bytes (append_cancel_left (congrArg Text.bytes h)))

/-- The imports of a listing. -/
def importTable (count : Nat) : List (Text × UInt32) := numbered symbolId (fun _ => true) count

theorem importTable_succ (count : Nat) :
    importTable (count + 1) = importTable count ++ [(symbolId count, UInt32.ofNat count)] :=
  numbered_succ

theorem advances_symbols {symbols : List Symbol} (hspelled : ∀ s ∈ symbols, s.Spelled)
    (hdistinct : ((d.unit.symbols ++ symbols).map Symbol.text).Nodup)
    (himports : d.scope.imports = importTable d.unit.symbols.length)
    (hts : ts.map word = (symbols.zipIdx d.unit.symbols.length).flatMap
      (fun q => symbolWords q.2 q.1) ++ rest) :
    ∃ mid, mid.map word = rest ∧ Advances symbols.length d ts
      { d with
        unit.symbols := d.unit.symbols ++ symbols
        scope.imports := importTable (d.unit.symbols ++ symbols).length } mid := by
  induction symbols generalizing d ts with
  | nil => exact ⟨ts, hts, by rw [append_nil, ← himports]; exact .refl d ts⟩
  | cons s symbols ih =>
    obtain ⟨hs, hspelled⟩ := forall_mem_cons.mp hspelled
    rw [zipIdx_cons, flatMap_cons, append_assoc] at hts
    have hne : ∀ x ∈ d.unit.symbols, x.text ≠ s.text := by
      intro x hx htext
      rw [map_append, map_cons] at hdistinct
      refine (disjoint_of_nodup_append hdistinct) (mem_map_of_mem hx) ?_
      rw [htext]
      exact mem_cons_self
    have hnew : d.scope.imports.lookup (symbolId d.unit.symbols.length) = none := by
      rw [himports]
      exact lookup_numbered_of_le symbolId_injective (Nat.le_refl _)
    obtain ⟨mid, hread, hmid⟩ := takes_importDecl hs hts hnew
    rw [CodeUnit.addSymbol_of_forall_ne hne] at hread
    obtain ⟨ts', hts', h⟩ := ih (d := { d with
      unit.symbols := d.unit.symbols ++ [s]
      scope.imports := d.scope.imports ++
        [(symbolId d.unit.symbols.length, UInt32.ofNat d.unit.symbols.length)] }) hspelled
      (by simpa using hdistinct) (by simp [himports, importTable_succ]) (by simpa using hmid)
    refine ⟨ts', hts', ?_⟩
    simpa using (advances_field (by simp [fieldNames]) hts hmid hread).trans h

/-! ## Functions -/

/-- Functions with their bodies, which are to be read one after the other. -/
def Await (u : CodeUnit) (fs : List (Func × List Instr)) (first : Nat) (ps : List Pending) : Prop :=
  List.Forall₂ (fun q p => p.Awaits u q.1.1 q.1.2 q.2) (fs.zipIdx first) ps

theorem advances_functions {u : CodeUnit} {fs : List (Func × List Instr)}
    (hspelled : ∀ q ∈ fs, q.1.Spelled)
    (hnames : ((d.unit.functions ++ fs.map Prod.fst).map Func.name).Nodup)
    (hids : d.scope.functions.map Prod.fst = d.unit.functions.map (("$" : Text) ++ ·.name))
    (hts : ts.map word = fs.flatMap (fun q => functionWords u q.1 q.2) ++ rest) :
    ∃ mid scope ps, mid.map word = rest ∧ scope.imports = d.scope.imports ∧
      Await u fs d.unit.functions.length ps ∧ Advances fs.length d ts
        { unit := { d.unit with functions := d.unit.functions ++ fs.map (funcHead ·.1) }
          scope, pending := d.pending ++ ps } mid := by
  induction fs generalizing d ts with
  | nil =>
    refine ⟨ts, d.scope, [], hts, rfl, .nil, ?_⟩
    rw [map_nil, append_nil, append_nil]
    exact .refl d ts
  | cons q fs ih =>
    obtain ⟨hq, hspelled⟩ := forall_mem_cons.mp hspelled
    rw [flatMap_cons, append_assoc] at hts
    have hnew : d.scope.functions.lookup ("$" ++ q.1.name) = none := by
      rw [lookup_eq_none_iff]
      intro x hx
      have hmem : x.1 ∈ d.unit.functions.map (("$" : Text) ++ ·.name) :=
        hids ▸ mem_map_of_mem hx
      obtain ⟨g, hg, hgx⟩ := mem_map.mp hmem
      rw [bne_iff_ne, ← hgx]
      intro heq
      have hname : q.1.name = g.name :=
        Text.ext_bytes (append_cancel_left (congrArg Text.bytes heq))
      rw [map_append, map_cons, map_cons] at hnames
      refine disjoint_of_nodup_append hnames (mem_map_of_mem hg) ?_
      rw [← hname]
      exact mem_cons_self
    obtain ⟨p, mid, hp, hmid, hread⟩ := takes_function hq hts hnew
    obtain ⟨ts', scope, ps, hts', hscope, hps, h⟩ := ih (d := { d with
      unit.functions := d.unit.functions ++ [funcHead q.1]
      scope.functions := d.scope.functions ++ [("$" ++ q.1.name, d.unit.functions.length)]
      pending := d.pending ++ [p] }) hspelled (by simpa [funcHead] using hnames)
      (by simp [hids, funcHead]) hmid
    rw [length_append, length_singleton] at hps
    refine ⟨ts', scope, p :: ps, hts', hscope, .cons hp hps, ?_⟩
    simpa using (advances_field (by simp [fieldNames]) hts hmid hread).trans h

/-! ## Units -/

/-- The words of a unit whose bodies are known. -/
def unitWords (u : CodeUnit) (fs : List (Func × List Instr)) : List Word :=
  form "unit" (headWords u ++ fs.flatMap fun q => functionWords u q.1 q.2)

/-- A unit of which only the heads of functions were read. -/
def outline (u : CodeUnit) : CodeUnit :=
  { u with strings := [], functions := u.functions.map funcHead }

/-- A unit is read field by field. -/
theorem yields_unit_iff {r : Draft} {m n : Nat} :
    Yields unit {} (⟨.lparen, "(", m⟩ :: ⟨.ident, "unit", n⟩ :: ts) () r [] ↔
      Yields (fields (ts.length + 2)) {} ts () r [] := by
  simp only [unit, yields_bind, yields_lift, yields_getTokens, Parser.gives_expect,
    Parser.gives_keyword]
  constructor
  · rintro ⟨_, _, _, ⟨rfl, rfl, rfl⟩, _, _, _, ⟨⟨hts, -⟩, rfl⟩, _, _, _, ⟨⟨_, hts', -⟩, rfl⟩, _, _, mid,
      hfields, _, _, _, ⟨rfl, rfl, rfl⟩, h⟩
    cases hts
    cases hts'
    split at h
    next =>
      obtain ⟨-, rfl, -⟩ := yields_pure.mp h
      exact hfields
    next => exact absurd (yields_attempt.mp h).1 reject_ne_ok
  · intro h
    exact ⟨_, _, _, ⟨rfl, rfl, rfl⟩, _, _, _, ⟨⟨rfl, rfl⟩, rfl⟩, (), _, _, ⟨⟨_, rfl, rfl, rfl⟩, rfl⟩, (), _, _,
      h, _, _, _, ⟨rfl, rfl, rfl⟩, yields_return⟩

/-- **The first reading of a listing** finds all but the bodies. -/
theorem yields_unitWords {u : CodeUnit} (hu : u.Spelled) {fs : List (Func × List Instr)}
    (hfs : fs.map Prod.fst = u.functions) (hts : ts.map word = unitWords u fs) :
    ∃ scope ps, scope.imports = importTable u.symbols.length ∧ Await u fs 0 ps ∧
      Yields unit {} ts () { unit := outline u, scope, pending := ps } [] := by
  have hspelled : ∀ q ∈ fs, q.1.Spelled := fun q hq =>
    hu.functions q.1 (hfs ▸ mem_map_of_mem hq)
  have houtline : outline u = { classes := u.classes, symbols := u.symbols, records := u.records
                                functions := fs.map (funcHead ·.1) } := by
    rw [outline, hu.custom, ← hfs, map_map]
    rfl
  have hts' : ts.map word = form "unit" (headWords u ++
      fs.flatMap fun q => functionWords u q.1 q.2) ++ [] := by rw [append_nil]; exact hts
  obtain ⟨m, n, ts₁, rfl, h₁⟩ := exists_of_form hts'
  unfold headWords at h₁
  simp only [append_assoc] at h₁
  obtain ⟨ts₂, h₂, hclasses⟩ := advances_classes (d := {}) hu.classes h₁
  obtain ⟨ts₃, h₃, hsymbols⟩ :=
    advances_symbols (d := { unit := { classes := u.classes } }) hu.symbols hu.distinct rfl h₂
  obtain ⟨ts₄, h₄, hrecords⟩ := advances_records (d := {
    unit := { classes := u.classes, symbols := u.symbols }
    scope := { imports := importTable u.symbols.length } }) hu.records h₃
  obtain ⟨ts₅, scope, ps, h₅, hscope, hps, hfunctions⟩ := advances_functions (d := {
    unit := { classes := u.classes, symbols := u.symbols, records := u.records }
    scope := { imports := importTable u.symbols.length } }) hspelled (by rw [hfs]; exact hu.names) rfl h₄
  obtain ⟨line, ts₆, rfl, h₆⟩ := exists_of_words h₅
  obtain rfl := map_eq_nil_iff.mp h₆
  refine ⟨scope, ps, hscope, hps, ?_⟩
  have hadvances := ((hclasses.trans hsymbols).trans hrecords).trans hfunctions
  obtain ⟨most, hmost⟩ := Nat.exists_eq_add_of_le' hadvances.shorter
  have hfuel : ts₁.length + 2 = most + 2 + 1 + (fs.length + (u.records.length +
      (u.symbols.length + u.classes.length))) := by
    rw [hmost, length_singleton]
    omega
  rw [yields_unit_iff, hfuel, hadvances.yields_iff, houtline]
  exact yields_fields_closing (most + 2)

end Assembly

end Resumable
