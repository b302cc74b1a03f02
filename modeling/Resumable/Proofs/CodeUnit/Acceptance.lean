import Resumable.Proofs.CodeUnit.Rewriting

/-!
# Bytes that are accepted were written well

Writing never fails, but it may leave bytes that cannot be read: a name that is no UTF-8 is written as
it is. `writable_of_parse` says that this is found out. If the bytes of a unit are accepted and 32 bits
count them, every name in them is UTF-8, so what is read back is the unit with the pool that was
written.
-/

namespace Resumable

open List Wire

/-! ## Names -/

section

variable {ε α : Type} {r : Reader ε α} {bs rest : Bytes} {p : Nat} {x y : α} {c : Cursor}

/-- What reads all bytes of something cannot read anything else there. -/
theorem Wire.Reads.eq (h : Reads r bs x) (hrun : ExceptT.run r ⟨bs ++ rest, p⟩ = (.ok y, c)) :
    y = x ∧ c = ⟨rest, p + bs.length⟩ := by
  rw [h rest p] at hrun
  cases hrun
  exact ⟨rfl, rfl⟩

end

section

variable {t s : Text} {rest : Bytes} {p : Nat} {c : Cursor}

/-- A written name that is accepted is UTF-8. -/
theorem isUtf8_of_run_name (hsize : t.size < 2 ^ 32)
    (h : ExceptT.run Reader.name ⟨name t ++ rest, p⟩ = (.ok s, c)) : t.isUtf8 := by
  rw [name, append_assoc] at h
  obtain ⟨size, c₁, hlen, h⟩ := run_bind_eq_ok.mp h
  obtain ⟨rfl, rfl⟩ := (reads_u32 _).eq hlen
  obtain ⟨bs, c₂, hbytes, h⟩ := run_bind_eq_ok.mp h
  rw [UInt32.toNat_ofNat_of_lt' hsize] at hbytes
  obtain ⟨rfl, rfl⟩ := (reads_bytes t.bytes).eq hbytes
  dsimp only at h
  split at h
  next hutf8 => exact hutf8
  next => cases h

/-- The same for a row of names. -/
theorem isUtf8_of_run_times {ts ss : List Text} (hsize : ∀ t ∈ ts, t.size < 2 ^ 32)
    (h : ExceptT.run (Reader.times (liftM Reader.name : Reader EntryFault Text) ts.length)
      ⟨ts.flatMap name ++ rest, p⟩ = (.ok ss, c)) : ∀ t ∈ ts, t.isUtf8 := by
  induction ts generalizing p ss c with
  | nil => simp
  | cons t ts ih =>
    rw [flatMap_cons, append_assoc] at h
    obtain ⟨s, c₁, hs, h⟩ := run_bind_eq_ok.mp h
    obtain ⟨ss', c₂, hss, -⟩ := run_bind_eq_ok.mp h
    rw [forall_mem_cons] at hsize ⊢
    have ht := isUtf8_of_run_name hsize.1 (run_lift_ok.mp hs)
    obtain ⟨-, rfl⟩ := (reads_name hsize.1 ht).eq (run_lift_ok.mp hs)
    exact ⟨ht, ih hsize.2 hss⟩

end

namespace CodeUnit

namespace Read

variable {u u' v : CodeUnit} {s : Section} {last : UInt8} {data : Bytes} {parts : List Part}
  {c : Cursor}

/-! ## Sections -/

/-- Sections that were read from the bytes of a row are those of the row. -/
theorem fills_of_run_sections {most p : Nat} (hsize : ∀ part ∈ parts, part.2.length < 2 ^ 32)
    (hmost : parts.length ≤ most)
    (h : ExceptT.run (sections most last u) ⟨parts.flatMap Part.bytes, p⟩ = (.ok v, c)) :
    Fills last u parts v := by
  induction parts generalizing most last u p with
  | nil =>
    cases most <;> cases h <;> exact .nil _ _
  | cons part parts ih =>
    obtain ⟨s, data⟩ := part
    cases most with
    | zero => simp at hmost
    | succ most =>
      have hbytes : ((s, data) :: parts).flatMap Part.bytes =
          s.id :: (len data.length ++ (data ++ parts.flatMap Part.bytes)) := by
        simp only [flatMap_cons, Part.bytes, block, cons_append, append_assoc]
      rw [hbytes] at h
      rw [forall_mem_cons] at hsize
      obtain ⟨s', size, data', u', c₁, c₂, hid, order, hlen, hdata, hpay, h⟩ :=
        run_sections_cons.mp h
      -- the number, the size and the contents of the section are those that were written
      obtain rfl : s' = s := Option.some.inj (by rw [← ofId?_id s', hid, ofId?_id])
      obtain ⟨rfl, rfl⟩ := (reads_u32 _).eq hlen
      rw [UInt32.toNat_ofNat_of_lt' hsize.1] at hdata
      obtain ⟨rfl, rfl⟩ := (reads_bytes data).eq hdata
      exact .cons order hsize.1 hpay (ih hsize.2 (Nat.le_of_succ_le_succ hmost) h)

/-- Custom sections are accepted only with names that are UTF-8. -/
theorem Fills.of_custom {cs : List CustomSection}
    (h : Fills last u (cs.map (fun c => (.custom, name c.name ++ c.data)) ++ parts) v) :
    (∀ c ∈ cs, c.name.isUtf8) ∧ ∃ u', Fills last u' parts v := by
  induction cs generalizing u with
  | nil => exact ⟨by simp, u, h⟩
  | cons c cs ih =>
    obtain _ | ⟨-, size, hpay, rest⟩ := h
    obtain ⟨_, hrun⟩ := payload_eq_ok hpay
    obtain ⟨_, _, hname, -⟩ := run_bind_eq_ok.mp hrun
    have hname := run_lift_ok.mp (run_adapt_ok.mp hname)
    obtain ⟨hcs, hrest⟩ := ih rest
    exact ⟨forall_mem_cons.mpr ⟨isUtf8_of_run_name (size_lt_of_name size) hname, hcs⟩, hrest⟩

/-- A pool is accepted only with names that are UTF-8. -/
theorem Fills.of_strings {pool : Pool} (h : Fills last u (poolPart pool ++ parts) v) :
    ∀ t ∈ pool, t.isUtf8 := by
  cases pool with
  | nil => simp
  | cons t ts =>
    obtain _ | ⟨-, size, hpay, -⟩ := h
    obtain ⟨_, hrun⟩ := payload_eq_ok hpay
    obtain ⟨_, _, hnames, -⟩ := run_bind_eq_ok.mp hrun
    have hnames : ExceptT.run (Read.vector (liftM Reader.name)) ⟨Wire.vector name (t :: ts), 0⟩ = _ :=
      run_adapt_ok.mp hnames
    obtain ⟨n, c₁, hn, hnames⟩ := run_bind_eq_ok.mp hnames
    have hmany := length_names (t :: ts)
    simp only [Wire.vector, length_append] at size
    rw [Wire.vector, ← append_nil (flatMap _ _)] at hn
    rw [run_lift_ok, run_len (by omega) (by rw [append_nil]; exact hmany.1)] at hn
    cases hn
    refine isUtf8_of_run_times (fun s hs => ?_) hnames
    have := hmany.2 s hs
    omega

end Read

/-! ## Whole units -/

variable {u v : CodeUnit}

theorem sizes_lt (hsize : u.encode.length < 2 ^ 32) : ∀ part ∈ u.parts, part.2.length < 2 ^ 32 := by
  intro part hpart
  obtain ⟨before, after, hparts⟩ := append_of_mem hpart
  rw [encode_eq, hparts] at hsize
  simp only [flatMap_append, flatMap_cons, Part.bytes, block, length_append,
    length_cons] at hsize
  omega

open Read in
/-- The parts of a unit whose bytes are accepted were read one after the other. -/
theorem fills_of_parse (hsize : u.encode.length < 2 ^ 32) (h : parse u.encode = .ok v) :
    Fills 0 {} u.parts v := by
  obtain ⟨v', hwhole, h⟩ := bind_eq_ok.mp h
  obtain ⟨_, -, h⟩ := bind_eq_ok.mp h
  cases h
  obtain ⟨c, hrun⟩ : ∃ c, ExceptT.run (whole u.encode.length) ⟨u.encode, 0⟩ = (.ok v, c) :=
    ⟨_, Prod.ext hwhole rfl⟩
  rw [whole, encode_eq, run_bind_ok (run_placed_ok.mpr (reads_u32le _ _ _)), if_neg (by simp),
    run_bind_ok (run_placed_ok.mpr (reads_u32le _ _ _)), if_neg (by simp), ← encode_eq] at hrun
  exact fills_of_run_sections (sizes_lt hsize) u.length_parts_le hrun

/-- **What is accepted was written well.** -/
theorem writable_of_parse (hsize : u.encode.length < 2 ^ 32) (h : parse u.encode = .ok v) :
    u.Writable := by
  have hfills := fills_of_parse hsize h
  unfold parts at hfills
  obtain ⟨hcustom, _, hrest⟩ := hfills.of_custom
  exact ⟨sizes_lt hsize, hrest.of_strings, hcustom⟩

/-- What is read back is the unit with the pool that was written. -/
theorem eq_of_parse_encode (hsize : u.encode.length < 2 ^ 32) (h : parse u.encode = .ok v) :
    v = { u with strings := u.pool } := by
  rw [(writable_of_parse hsize h).parse_encode] at h
  obtain ⟨_, -, h⟩ := bind_eq_ok.mp h
  cases h
  rfl

/-- There are not more layouts than bytes. -/
theorem length_records_lt (hsize : u.encode.length < 2 ^ 32) : u.records.length < 2 ^ 32 := by
  cases hrecords : u.records with
  | nil => decide
  | cons l rest =>
    obtain ⟨-, hmany, -⟩ := Pool.each_leaves Pool.leaves_layout u.records u.symbolPool
    have hpart : (Section.records, (Pool.vector Pool.layout u.records u.symbolPool).1) ∈ u.parts := by
      simp [parts, tablePart, hrecords]
    have hlen := sizes_lt hsize _ hpart
    have hvector : (Pool.vector Pool.layout u.records u.symbolPool).1 =
        len u.records.length ++ (Pool.each Pool.layout u.records u.symbolPool).1 := rfl
    rw [hvector, length_append] at hlen
    rw [← hrecords]
    omega

end CodeUnit

end Resumable
