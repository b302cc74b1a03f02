import Resumable.CodeUnit.Reader
import Resumable.Proofs.Table
import Resumable.Proofs.Wire.RoundTrip

/-!
# Entries of tables are read back

The tables of a unit are written together with a pool of strings that grows on the way, and are read
with the pool as it is in the end. `Leaves` says that what a writer leaves behind is read back with
every pool that starts with the one it leaves, as long as 32 bits can count the pool and the bytes.
Every entry takes a byte at least, so lengths of lists need no condition of their own: they are not
greater than the number of bytes.
-/

namespace Resumable

open List Wire

theorem run_lift_ok {α : Type} {r : Reader Fault α} {c c' : Cursor} {x : α} :
    ExceptT.run (liftM r : Reader EntryFault α) c = (.ok x, c') ↔
      ExceptT.run r c = (.ok x, c') :=
  run_adapt_ok

namespace Pool

theorem pure_apply {α : Type} (a : α) (pool : Pool) : (pure a : StateM Pool α) pool = (a, pool) := rfl

theorem bind_apply {α β : Type} (w : StateM Pool α) (k : α → StateM Pool β) (pool : Pool) :
    (w >>= k) pool = k (w pool).1 (w pool).2 := rfl

/-! ## Interning -/

theorem intern_grows (s : Text) (pool : Pool) : pool <+: (intern s pool).2 := by
  unfold intern
  cases pool.findIdx? (· = s) with
  | some i => exact prefix_refl pool
  | none => exact prefix_append pool [s]

/-- The place of a string finds it again when the pool has grown. -/
theorem item?_intern {s : Text} {pool : Pool} {strings : List Text}
    (h : (intern s pool).2 <+: strings) (hlen : strings.length < 2 ^ 32) :
    item? strings (intern s pool).1 = some s := by
  have hle := h.length_le
  refine item?_mono h ?_
  unfold intern at hle ⊢
  cases hk : pool.findIdx? (· = s) with
  | some i =>
    rw [hk] at hle
    obtain ⟨x, hx, hp⟩ := item?_findIdx hk (Nat.le_of_lt (Nat.lt_of_le_of_lt hle hlen))
    rw [of_decide_eq_true hp] at hx
    exact hx
  | none =>
    rw [hk] at hle
    exact item?_append_singleton (Nat.le_of_lt (Nat.lt_of_le_of_lt hle hlen))

theorem intern_lt {s : Text} {pool : Pool} {strings : List Text}
    (h : (intern s pool).2 <+: strings) (hlen : strings.length < 2 ^ 32) :
    (intern s pool).1.toNat < strings.length :=
  exists_item?_iff.mp ⟨s, item?_intern h hlen⟩

/-! ## What writers leave -/

/-- A writer that was given `pool` has left bytes and a pool, from which `r` reads `x`. -/
structure Leaves {α : Type} (pool : Pool) (out : Bytes × Pool) (r : List Text → Reader EntryFault α)
    (x : α) : Prop where
  grows : pool <+: out.2
  pos : 0 < out.1.length
  reads : ∀ {strings : List Text}, out.2 <+: strings → strings.length < 2 ^ 32 →
    out.1.length < 2 ^ 32 → Reads (r strings) out.1 x

section

variable {α β : Type} {pool : Pool} {out out' : Bytes × Pool} {bs : Bytes} {x : α} {y : β}
  {r : List Text → Reader EntryFault α} {k : List Text → α → Reader EntryFault β}

theorem Leaves.bind (h : Leaves pool out r x)
    (h' : Leaves out.2 out' (fun strings => k strings x) y) :
    Leaves pool (out.1 ++ out'.1, out'.2) (fun strings => r strings >>= k strings) y where
  grows := h.grows.trans h'.grows
  pos := by
    have hpos := h.pos
    rw [length_append]
    omega
  reads hs hlen hbs := by
    rw [length_append] at hbs
    exact (h.reads (h'.grows.trans hs) hlen (by omega)).bind (h'.reads hs hlen (by omega))

theorem Leaves.map {g : α → β} (h : Leaves pool out r x) :
    Leaves pool out (fun strings => do return g (← r strings)) (g x) :=
  ⟨h.grows, h.pos, fun hs hlen hbs => (h.reads hs hlen hbs).map⟩

/-- Bytes that do not depend on the pool. -/
theorem Leaves.plain {r : Reader Fault α} (h : Reads r bs x) (hpos : 0 < bs.length) (pool : Pool) :
    Leaves pool (bs, pool) (fun _ => liftM r) x :=
  ⟨prefix_refl pool, hpos, fun _ _ _ => h.adapt _⟩

theorem Leaves.of_eq (h : Leaves pool out' r x) (heq : out = out') : Leaves pool out r x := heq ▸ h

theorem leaves_u32 (v : UInt32) (pool : Pool) : Leaves pool (u32 v, pool) (fun _ => liftM Reader.u32) v :=
  .plain (reads_u32 v) (length_u32_pos v) pool

theorem leaves_byte (b : UInt8) (pool : Pool) : Leaves pool ([b], pool) (fun _ => liftM Reader.byte) b :=
  .plain (reads_byte b) Nat.one_pos pool

end

/-! ## Strings and types -/

theorem leaves_string (s : Text) (pool : Pool) : Leaves pool (string s pool) CodeUnit.Read.string s where
  grows := intern_grows s pool
  pos := length_u32_pos _
  reads {strings} hs hlen _ := by
    show Reads _ (u32 (intern s pool).1) s
    rw [← append_nil (u32 _)]
    refine ((reads_u32 _).adapt _).bind ?_
    rw [item?_intern hs hlen]
    exact .pure s

theorem leaves_optional (s : Text) (pool : Pool) :
    Leaves pool (optional s pool) CodeUnit.Read.optional s := by
  by_cases hs : s.isEmpty
  · have hout : optional s pool = (u32 0, pool) := by
      unfold optional
      rw [if_pos hs]
      rfl
    obtain rfl : s = ∅ := congrArg Text.mk (List.isEmpty_iff.mp hs)
    rw [hout]
    refine ⟨prefix_refl pool, length_u32_pos 0, fun _ _ _ => ?_⟩
    show Reads _ (u32 0 ++ []) _
    exact ((reads_u32 0).adapt _).bind (.pure _)
  · have hout : optional s pool = (u32 ((intern s pool).1 + 1), (intern s pool).2) := by
      unfold optional
      rw [if_neg hs]
      rfl
    rw [hout]
    refine ⟨intern_grows s pool, length_u32_pos _, fun {strings} hstrings hlen _ => ?_⟩
    -- The place is not the last number, so one more is not zero.
    have hlt := intern_lt hstrings hlen
    have hne : (intern s pool).1 + 1 ≠ 0 := by
      intro h
      have := congrArg UInt32.toNat h
      rw [UInt32.toNat_add, UInt32.toNat_one, UInt32.toNat_zero] at this
      omega
    show Reads _ (u32 ((intern s pool).1 + 1)) _
    rw [← append_nil (u32 _)]
    refine ((reads_u32 _).adapt _).bind ?_
    rw [if_neg hne, UInt32.add_sub_cancel, item?_intern hstrings hlen]
    exact .pure s

theorem leaves_type (t : Ty) (pool : Pool) : Leaves pool (type t pool) CodeUnit.Read.type t := by
  cases t with
  | ref cls =>
    have h := leaves_string cls pool
    refine ⟨h.grows, Nat.succ_pos _, fun hs hlen hbs => ?_⟩
    exact ((reads_byte 4).adapt _).bind (h.reads hs hlen (Nat.lt_of_succ_lt hbs)).map
  | void | int | null => exact ⟨prefix_refl pool, Nat.one_pos, fun _ _ _ => fun _ _ => rfl⟩
  | top => exact ⟨prefix_refl pool, Nat.one_pos, fun _ _ _ => fun _ _ => rfl⟩

/-! ## Lists -/

section

variable {α β : Type} {w : α → StateM Pool Bytes} {r : List Text → Reader EntryFault α}

/-- Items one after the other, of which there are not more than bytes. -/
theorem each_leaves (h : ∀ a pool, Leaves pool (w a pool) r a) (items : List α) (pool : Pool) :
    pool <+: (each w items pool).2 ∧ items.length ≤ (each w items pool).1.length ∧
      ∀ {strings : List Text}, (each w items pool).2 <+: strings → strings.length < 2 ^ 32 →
        (each w items pool).1.length < 2 ^ 32 →
        Reads (Reader.times (r strings) items.length) (each w items pool).1 items := by
  induction items generalizing pool with
  | nil => exact ⟨prefix_refl pool, Nat.le_refl 0, fun _ _ _ => .pure []⟩
  | cons a items ih =>
    have ha := h a pool
    obtain ⟨hgrows, hmany, hreads⟩ := ih (w a pool).2
    have hout : each w (a :: items) pool =
        ((w a pool).1 ++ (each w items (w a pool).2).1, (each w items (w a pool).2).2) := rfl
    simp only [hout, length_append, length_cons]
    refine ⟨ha.grows.trans hgrows, ?_, fun hs hlen hbs => ?_⟩
    · have := ha.pos
      omega
    · exact (ha.reads (hgrows.trans hs) hlen (by omega)).bind
        (hreads hs hlen (by omega)).map

theorem leaves_vector (h : ∀ a pool, Leaves pool (w a pool) r a) (items : List α) (pool : Pool) :
    Leaves pool (vector w items pool) (fun strings => CodeUnit.Read.vector (r strings)) items := by
  obtain ⟨hgrows, hmany, hreads⟩ := each_leaves h items pool
  have hout : vector w items pool =
      (len items.length ++ (each w items pool).1, (each w items pool).2) := rfl
  rw [hout]
  refine ⟨hgrows, ?_, fun {strings} hs hlen hbs => ?_⟩
  · have := length_u32_pos (UInt32.ofNat items.length)
    simp only [len, length_append]
    omega
  · simp only [length_append] at hbs
    intro rest p
    have hn := @run_len items.length p ((each w items pool).1 ++ rest)
      (by omega) (by rw [length_append]; omega)
    unfold CodeUnit.Read.vector
    rw [append_assoc, run_bind_ok (run_lift_ok.mpr hn), hreads hs hlen (by omega), length_append,
      Nat.add_assoc]

theorem leaves_types (ts : List Ty) (pool : Pool) :
    Leaves pool (types ts pool) CodeUnit.Read.types ts :=
  leaves_vector leaves_type ts pool

/-- A number of bytes and then the bytes, with what comes behind them. -/
theorem leaves_sized {bs : Bytes} {pool : Pool} {out : Bytes × Pool}
    {k : List Text → Bytes → Reader EntryFault β} {y : β}
    (h : Leaves pool out (fun strings => k strings bs) y) :
    Leaves pool (len bs.length ++ (bs ++ out.1), out.2)
      (fun strings => do k strings (← liftM (Reader.bytes (← liftM Reader.len)))) y := by
  have hpos := h.pos
  refine ⟨h.grows, ?_, fun {strings} hs hlen hbs => ?_⟩
  · simp only [length_append]
    omega
  · simp only [length_append] at hbs
    intro rest p
    have hn := @run_len bs.length p (bs ++ (out.1 ++ rest)) (by omega)
      (by rw [length_append]; omega)
    rw [append_assoc, append_assoc, run_bind_ok (run_lift_ok.mpr hn),
      run_bind_ok (run_lift_ok.mpr (reads_bytes bs _ _)), h.reads hs hlen (by omega)]
    simp only [length_append, Nat.add_assoc]

end

/-! ## Entries -/

theorem leaves_classDecl (c : ClassDecl) (pool : Pool) :
    Leaves pool (classDecl c pool) CodeUnit.Read.classDecl c :=
  (leaves_string c.name pool).bind (leaves_optional c.super _).map

theorem leaves_symbol (s : Symbol) (pool : Pool) :
    Leaves pool (symbol s pool) CodeUnit.Read.symbol s := by
  refine Leaves.of_eq ((leaves_optional s.owner pool).bind <| (leaves_string s.name _).bind <|
    (leaves_types s.params _).bind (leaves_type s.result _).map) ?_
  simp only [← append_assoc]
  rfl

theorem leaves_layout (l : Layout) (pool : Pool) :
    Leaves pool (layout l pool) CodeUnit.Read.layout l := by
  refine Leaves.of_eq ((leaves_string l.function pool).bind <| (leaves_u32 l.point _).bind
    (leaves_types l.fields _).map) ?_
  simp only [← append_assoc]
  rfl

theorem leaves_handler (h : Handler) (pool : Pool) :
    Leaves pool (handler h pool) CodeUnit.Read.handler h := by
  refine Leaves.of_eq ((leaves_u32 h.start pool).bind <| (leaves_u32 h.stop _).bind <|
    (leaves_u32 h.target _).bind <| (leaves_optional h.cls _).bind <|
    (leaves_u32 h.region _).bind (leaves_byte h.kind _).map) ?_
  simp only [← append_assoc]
  rfl

theorem leaves_frame (f : FrameEntry) (pool : Pool) :
    Leaves pool (frame f pool) CodeUnit.Read.frame f := by
  refine Leaves.of_eq ((leaves_u32 f.instr pool).bind <| (leaves_types f.locals _).bind
    (leaves_types f.stack _).map) ?_
  simp only [← append_assoc]
  rfl

theorem leaves_func (f : Func) (pool : Pool) :
    Leaves pool (func f pool) CodeUnit.Read.func f := by
  refine Leaves.of_eq ((leaves_string f.name pool).bind <| (leaves_byte f.flags _).bind <|
    (leaves_types f.params _).bind <| (leaves_type f.result _).bind <|
    (leaves_u32 f.maxStack _).bind <| (leaves_u32 f.maxLocals _).bind <|
    leaves_sized <| (leaves_vector leaves_handler f.handlers _).bind
    (leaves_vector leaves_frame f.frames _).map) ?_
  simp only [← append_assoc]
  rfl

end Pool

end Resumable
