import Mathlib.Data.List.Flatten
import Mathlib.Data.List.Perm.Subperm
import Resumable.Proofs.CodeUnit.Sections
import Resumable.Proofs.Wire.RoundTrip

/-!
# Units that were read can be written

The tables of a unit that was read refer to strings of its pool only. Writing them again finds every
string at its first place in the pool, so the pool does not grow, and no entry takes more bytes than
it was read from. Hence 32 bits still count the sections of the unit.
-/

namespace Resumable

open List Pool Wire

namespace Pool

/-! ## Pools without repetition -/

variable {strings : List Text} {pool : Pool} {s : Text}

/-- A string that is in the pool is found at its first place, and the pool stays as it is. -/
theorem intern_of_getElem? {i : Nat} (h : pool[i]? = some s) :
    ∃ k ≤ i, intern s pool = (UInt32.ofNat k, pool) := by
  obtain ⟨hi, hs⟩ := List.getElem?_eq_some_iff.mp h
  unfold intern
  cases hk : pool.findIdx? (· = s) with
  | none =>
    have := findIdx?_eq_none_iff.mp hk s (mem_of_getElem? h)
    simp at this
  | some k =>
    refine ⟨k, Nat.le_of_not_lt fun hlt => ?_, rfl⟩
    obtain ⟨_, _, hbefore⟩ := findIdx?_eq_some_iff_getElem.mp hk
    exact hbefore i hlt (decide_eq_true hs)

theorem intern_of_not_mem (h : s ∉ pool) : (intern s pool).2 = pool ++ [s] := by
  have hk : pool.findIdx? (· = s) = none :=
    findIdx?_eq_none_iff.mpr fun t ht => decide_eq_false fun heq => h (heq ▸ ht)
  unfold intern
  rw [hk]

theorem intern_of_mem (h : s ∈ pool) : (intern s pool).2 = pool := by
  obtain ⟨i, hi⟩ := mem_iff_getElem?.mp h
  obtain ⟨k, _, hk⟩ := intern_of_getElem? hi
  rw [hk]

/-- What interning some strings makes of a pool: those that are new, each once, are at its end. -/
theorem foldl_intern (strings : List Text) (pool : Pool) :
    ∃ more, strings.foldl (fun pool s => (intern s pool).2) pool = pool ++ more ∧
      more.Sublist strings ∧ (pool.Nodup → (pool ++ more).Nodup) ∧
      ∀ {i : Nat} {s : Text}, strings[i]? = some s →
        ∃ k ≤ pool.length + i, (pool ++ more)[k]? = some s := by
  induction strings generalizing pool with
  | nil => exact ⟨[], by simp, .refl [], by simp, by simp⟩
  | cons t strings ih =>
    rw [foldl_cons]
    by_cases ht : t ∈ pool
    · rw [intern_of_mem ht]
      obtain ⟨more, heq, hsub, hnodup, hplace⟩ := ih pool
      refine ⟨more, heq, hsub.cons t, hnodup, fun {i s} hs => ?_⟩
      cases i with
      | zero =>
        cases hs
        obtain ⟨k, hk⟩ := mem_iff_getElem?.mp ht
        have hlt := lt_of_getElem? hk
        exact ⟨k, by omega, by rw [getElem?_append_left hlt, hk]⟩
      | succ i =>
        obtain ⟨k, hk, hget⟩ := hplace hs
        exact ⟨k, by omega, hget⟩
    · rw [intern_of_not_mem ht]
      obtain ⟨more, heq, hsub, hnodup, hplace⟩ := ih (pool ++ [t])
      rw [append_assoc] at heq hnodup
      simp only [append_assoc, length_append] at hplace
      refine ⟨t :: more, heq, hsub.cons_cons t, fun h => hnodup ?_, fun {i s} hs => ?_⟩
      · exact nodup_append.mpr ⟨h, pairwise_singleton _ t, fun a ha b hb hab =>
          ht (mem_singleton.mp hb ▸ hab ▸ ha)⟩
      · cases i with
        | zero =>
          cases hs
          exact ⟨pool.length, by omega, by simp⟩
        | succ i =>
          obtain ⟨k, hk, hget⟩ := hplace hs
          exact ⟨k, by simp at hk; omega, hget⟩

/-- The strings at their first places. -/
theorem ofStrings_spec (strings : List Text) :
    (ofStrings strings).Sublist strings ∧ (ofStrings strings).Nodup ∧
      ∀ {i : Nat} {s : Text}, strings[i]? = some s → ∃ k ≤ i, (ofStrings strings)[k]? = some s := by
  obtain ⟨more, heq, hsub, hnodup, hplace⟩ := foldl_intern strings []
  have hall : ofStrings strings = more := heq
  rw [hall]
  refine ⟨hsub, hnodup nodup_nil, fun hs => ?_⟩
  obtain ⟨k, hk, hget⟩ := hplace hs
  exact ⟨k, by simpa using hk, hget⟩

theorem ofStrings_eq_self (h : strings.Nodup) : ofStrings strings = strings := by
  obtain ⟨hsub, _, hplace⟩ := ofStrings_spec strings
  have hall : strings ⊆ ofStrings strings := by
    intro s hs
    obtain ⟨i, hi⟩ := mem_iff_getElem?.mp hs
    obtain ⟨k, _, hk⟩ := hplace hi
    exact mem_of_getElem? hk
  exact hsub.eq_of_length_le (subperm_of_subset h hall).length_le

theorem ofStrings_prefix (a b : List Text) : ofStrings a <+: ofStrings (a ++ b) := by
  obtain ⟨more, heq, _⟩ := foldl_intern b (ofStrings a)
  unfold ofStrings at heq ⊢
  rw [foldl_append, heq]
  exact prefix_append _ more

/-- A string keeps its place if no string up to it is a repetition of another one. -/
theorem item?_ofStrings_eq_iff {n : UInt32} (hn : n.toNat < strings.length) :
    item? (ofStrings strings) n = item? strings n ↔ (strings.take (n.toNat + 1)).Nodup := by
  have hsplit := take_append_drop (n.toNat + 1) strings
  have hpre := hsplit ▸ ofStrings_prefix (strings.take (n.toNat + 1)) (strings.drop (n.toNat + 1))
  have hn' : n.toNat < (strings.take (n.toNat + 1)).length := by
    rw [length_take]
    omega
  have htake : (strings.take (n.toNat + 1))[n.toNat]? = strings[n.toNat]? :=
    getElem?_take_of_lt (Nat.lt_succ_self _)
  unfold item?
  constructor
  · intro h
    obtain ⟨hsub, hnodup, hplace⟩ := ofStrings_spec (strings.take (n.toNat + 1))
    obtain ⟨k, hk, hget⟩ := hplace (htake.trans (getElem?_eq_getElem hn))
    have hk' := lt_of_getElem? hget
    obtain ⟨more, hmore⟩ := hpre
    have hD : (ofStrings strings)[k]? = some strings[n.toNat] := by
      rw [← hmore, getElem?_append_left hk', hget]
    -- A pool without repetition has the string at one place only.
    have heq : k = n.toNat := by
      refine (getElem?_inj ?_ (ofStrings_spec strings).2.1).mp ?_
      · exact lt_of_getElem? hD
      · rw [hD, h, getElem?_eq_getElem hn]
    rw [← hsub.eq_of_length_le (by rw [length_take]; omega)]
    exact hnodup
  · intro h
    rw [ofStrings_eq_self h] at hpre
    obtain ⟨more, hmore⟩ := hpre
    rw [← hmore, getElem?_append_left hn', htake]

/-! ## Entries -/

/-- A writer leaves the pool as it is, and no more bytes than lie between two places. -/
def Within (pool : Pool) (c c' : Cursor) (w : StateM Pool Bytes) : Prop :=
  ∃ bs, w pool = (bs, pool) ∧ bs.length + c'.rest.length ≤ c.rest.length

section

variable {α : Type} {c c₁ c' : Cursor} {w w' : StateM Pool Bytes} {bs : Bytes}

theorem Within.append (h : Within pool c c₁ w) (h' : Within pool c₁ c' w') :
    Within pool c c' (do return (← w) ++ (← w')) := by
  obtain ⟨bs, hw, hlen⟩ := h
  obtain ⟨bs', hw', hlen'⟩ := h'
  refine ⟨bs ++ bs', ?_, ?_⟩
  · simp only [bind_apply, pure_apply, hw, hw']
  · rw [length_append]
    omega

theorem Within.plain (h : bs.length + c'.rest.length ≤ c.rest.length) :
    Within pool c c' (pure bs) :=
  ⟨bs, rfl, h⟩

theorem within_u32 {v : UInt32}
    (h : ExceptT.run (liftM Reader.u32 : Reader EntryFault UInt32) c = (.ok v, c')) :
    Within pool c c' (pure (u32 v)) :=
  .plain (length_u32_le (run_lift_ok.mp h) (UInt32.le_refl v))

theorem within_byte {b : UInt8}
    (h : ExceptT.run (liftM Reader.byte : Reader EntryFault UInt8) c = (.ok b, c')) :
    Within pool c c' (pure [b]) := by
  have h := run_lift_ok.mp h
  obtain ⟨_ | ⟨a, rest⟩, p⟩ := c
  · cases h
  · cases h
    exact .plain (by simp [Nat.add_comm])

theorem within_len {n : Nat}
    (h : ExceptT.run (liftM Reader.len : Reader EntryFault Nat) c = (.ok n, c')) :
    Within pool c c' (pure (len n)) := by
  obtain ⟨v, c₁, hv, h⟩ := run_bind_eq_ok.mp (run_lift_ok.mp h)
  rw [run_get_bind] at h
  split at h
  next => cases h
  next =>
    cases h
    have hle := length_u32_le hv (UInt32.le_refl v)
    refine .plain ?_
    rw [len, UInt32.ofNat_toNat]
    exact hle

theorem within_bytes {n : Nat}
    (h : ExceptT.run (liftM (Reader.bytes n) : Reader EntryFault Bytes) c = (.ok bs, c')) :
    Within pool c c' (pure bs) := by
  obtain ⟨hrest, _⟩ := run_bytes_eq_ok.mp (run_lift_ok.mp h)
  exact .plain (Nat.le_of_eq (by rw [hrest, length_append]))

/-- A string of the pool is not farther behind than where it was found. -/
theorem intern_ofStrings_le {n : UInt32} (h : item? strings n = some s) :
    ∃ m ≤ n, intern s (ofStrings strings) = (m, ofStrings strings) := by
  obtain ⟨i, hi, hget⟩ := (ofStrings_spec strings).2.2 h
  obtain ⟨k, hk, hintern⟩ := intern_of_getElem? hget
  refine ⟨UInt32.ofNat k, ?_, hintern⟩
  have := n.toNat_lt
  rw [UInt32.le_iff_toNat_le, UInt32.toNat_ofNat_of_lt' (show k < 2 ^ 32 by omega)]
  omega

theorem within_string (h : ExceptT.run (CodeUnit.Read.string strings) c = (.ok s, c')) :
    Within (ofStrings strings) c c' (string s) := by
  obtain ⟨n, c₁, hn, h⟩ := run_bind_eq_ok.mp h
  split at h
  next t ht =>
    cases h
    obtain ⟨m, hm, hintern⟩ := intern_ofStrings_le ht
    refine ⟨u32 m, ?_, length_u32_le (run_lift_ok.mp hn) hm⟩
    show (u32 (intern s _).1, (intern s _).2) = _
    rw [hintern]
  next => cases h

theorem within_optional (h : ExceptT.run (CodeUnit.Read.optional strings) c = (.ok s, c')) :
    Within (ofStrings strings) c c' (optional s) := by
  obtain ⟨n, c₁, hn, h⟩ := run_bind_eq_ok.mp h
  have hn := run_lift_ok.mp hn
  have habsent (hs : s.isEmpty) (hc : c₁ = c') : Within (ofStrings strings) c c' (optional s) := by
    subst hc
    unfold optional
    rw [if_pos hs]
    exact .plain (length_u32_le hn UInt32.zero_le)
  split at h
  next =>
    cases h
    exact habsent rfl rfl
  next hne =>
    split at h
    next t ht =>
      cases h
      by_cases hs : s.isEmpty
      · exact habsent hs rfl
      · obtain ⟨m, hm, hintern⟩ := intern_ofStrings_le ht
        refine ⟨u32 (m + 1), ?_, length_u32_le hn ?_⟩
        · unfold optional
          rw [if_neg hs]
          show (u32 ((intern s _).1 + 1), (intern s _).2) = _
          rw [hintern]
        have hpos : n.toNat ≠ 0 := fun h => hne (UInt32.toNat_inj.mp h)
        have hlt := n.toNat_lt
        have hm := UInt32.le_iff_toNat_le.mp hm
        have hone : (1 : UInt32) ≤ n := UInt32.le_iff_toNat_le.mpr (Nat.pos_of_ne_zero hpos)
        rw [UInt32.toNat_sub_of_le _ _ hone, UInt32.toNat_one] at hm
        rw [UInt32.le_iff_toNat_le, UInt32.toNat_add, UInt32.toNat_one]
        omega
    next => cases h

theorem within_type {t : Ty} (h : ExceptT.run (CodeUnit.Read.type strings) c = (.ok t, c')) :
    Within (ofStrings strings) c c' (type t) := by
  obtain ⟨tag, c₁, htag, h⟩ := run_bind_eq_ok.mp h
  have htag : Within (ofStrings strings) c c₁ (pure [tag]) := within_byte htag
  by_cases h4 : tag = 4
  · subst h4
    obtain ⟨cls, c₂, hcls, h⟩ := run_bind_eq_ok.mp h
    cases h
    exact htag.append (within_string hcls)
  · have hplain : t.tag = tag ∧ c₁ = c' ∧ type t = pure [t.tag] := by
      repeat' split at h
      all_goals first
        | exact absurd ‹_› h4
        | cases h
      all_goals exact ⟨Eq.symm ‹_›, rfl, rfl⟩
    obtain ⟨rfl, rfl, heq⟩ := hplain
    rw [heq]
    exact htag

/-! ## Lists -/

variable {w : α → StateM Pool Bytes} {r : Reader EntryFault α}

theorem within_times {n : Nat} {xs : List α}
    (hr : ∀ {c c' x}, ExceptT.run r c = (.ok x, c') → Within pool c c' (w x))
    (h : ExceptT.run (Reader.times r n) c = (.ok xs, c')) :
    xs.length = n ∧ Within pool c c' (each w xs) := by
  induction n generalizing c xs with
  | zero =>
    cases h
    exact ⟨rfl, .plain (Nat.le_of_eq (Nat.zero_add _))⟩
  | succ n ih =>
    obtain ⟨x, c₁, hx, h⟩ := run_bind_eq_ok.mp h
    obtain ⟨rest, c₂, hrest, h⟩ := run_bind_eq_ok.mp h
    cases h
    obtain ⟨rfl, hbytes⟩ := ih hrest
    exact ⟨rfl, (hr hx).append hbytes⟩

theorem within_vector {xs : List α}
    (hr : ∀ {c c' x}, ExceptT.run r c = (.ok x, c') → Within pool c c' (w x))
    (h : ExceptT.run (CodeUnit.Read.vector r) c = (.ok xs, c')) :
    Within pool c c' (vector w xs) := by
  obtain ⟨n, c₁, hn, h⟩ := run_bind_eq_ok.mp h
  obtain ⟨rfl, hbytes⟩ := within_times hr h
  exact (within_len hn).append hbytes

theorem within_types {ts : List Ty}
    (h : ExceptT.run (CodeUnit.Read.types strings) c = (.ok ts, c')) :
    Within (ofStrings strings) c c' (types ts) :=
  within_vector within_type h

/-! ## Entries of tables -/

theorem within_classDecl {d : ClassDecl}
    (h : ExceptT.run (CodeUnit.Read.classDecl strings) c = (.ok d, c')) :
    Within (ofStrings strings) c c' (classDecl d) := by
  obtain ⟨name, c₁, h1, h⟩ := run_bind_eq_ok.mp h
  obtain ⟨super, c₂, h2, h⟩ := run_bind_eq_ok.mp h
  cases h
  exact (within_string h1).append (within_optional h2)

theorem within_symbol {t : Symbol}
    (h : ExceptT.run (CodeUnit.Read.symbol strings) c = (.ok t, c')) :
    Within (ofStrings strings) c c' (symbol t) := by
  obtain ⟨owner, c₁, h1, h⟩ := run_bind_eq_ok.mp h
  obtain ⟨name, c₂, h2, h⟩ := run_bind_eq_ok.mp h
  obtain ⟨params, c₃, h3, h⟩ := run_bind_eq_ok.mp h
  obtain ⟨result, c₄, h4, h⟩ := run_bind_eq_ok.mp h
  cases h
  exact (((within_optional h1).append (within_string h2)).append (within_types h3)).append
    (within_type h4)

theorem within_layout {l : Layout}
    (h : ExceptT.run (CodeUnit.Read.layout strings) c = (.ok l, c')) :
    Within (ofStrings strings) c c' (layout l) := by
  obtain ⟨function, c₁, h1, h⟩ := run_bind_eq_ok.mp h
  obtain ⟨point, c₂, h2, h⟩ := run_bind_eq_ok.mp h
  obtain ⟨fields, c₃, h3, h⟩ := run_bind_eq_ok.mp h
  cases h
  exact ((within_string h1).append (within_u32 h2)).append (within_types h3)

theorem within_handler {t : Handler}
    (h : ExceptT.run (CodeUnit.Read.handler strings) c = (.ok t, c')) :
    Within (ofStrings strings) c c' (handler t) := by
  obtain ⟨start, c₁, h1, h⟩ := run_bind_eq_ok.mp h
  obtain ⟨stop, c₂, h2, h⟩ := run_bind_eq_ok.mp h
  obtain ⟨target, c₃, h3, h⟩ := run_bind_eq_ok.mp h
  obtain ⟨cls, c₄, h4, h⟩ := run_bind_eq_ok.mp h
  obtain ⟨region, c₅, h5, h⟩ := run_bind_eq_ok.mp h
  obtain ⟨kind, c₆, h6, h⟩ := run_bind_eq_ok.mp h
  cases h
  exact (((((within_u32 h1).append (within_u32 h2)).append (within_u32 h3)).append
    (within_optional h4)).append (within_u32 h5)).append (within_byte h6)

theorem within_frame {f : FrameEntry}
    (h : ExceptT.run (CodeUnit.Read.frame strings) c = (.ok f, c')) :
    Within (ofStrings strings) c c' (frame f) := by
  obtain ⟨instr, c₁, h1, h⟩ := run_bind_eq_ok.mp h
  obtain ⟨locals, c₂, h2, h⟩ := run_bind_eq_ok.mp h
  obtain ⟨stack, c₃, h3, h⟩ := run_bind_eq_ok.mp h
  cases h
  exact ((within_u32 h1).append (within_types h2)).append (within_types h3)

theorem within_func {f : Func} (h : ExceptT.run (CodeUnit.Read.func strings) c = (.ok f, c')) :
    Within (ofStrings strings) c c' (func f) := by
  obtain ⟨name, c₁, h1, h⟩ := run_bind_eq_ok.mp h
  obtain ⟨flags, c₂, h2, h⟩ := run_bind_eq_ok.mp h
  obtain ⟨params, c₃, h3, h⟩ := run_bind_eq_ok.mp h
  obtain ⟨result, c₄, h4, h⟩ := run_bind_eq_ok.mp h
  obtain ⟨maxStack, c₅, h5, h⟩ := run_bind_eq_ok.mp h
  obtain ⟨maxLocals, c₆, h6, h⟩ := run_bind_eq_ok.mp h
  obtain ⟨size, c₇, h7, h⟩ := run_bind_eq_ok.mp h
  obtain ⟨code, c₈, h8, h⟩ := run_bind_eq_ok.mp h
  obtain ⟨handlers, c₉, h9, h⟩ := run_bind_eq_ok.mp h
  obtain ⟨frames, c₁₀, h10, h⟩ := run_bind_eq_ok.mp h
  cases h
  obtain rfl := (run_bytes_eq_ok.mp (run_lift_ok.mp h8)).2.1
  -- The row is too long for `Within.append`; its parts are put together by hand.
  obtain ⟨bs1, e1, l1⟩ := within_string h1
  obtain ⟨_, ⟨⟩, l2⟩ := @within_byte (ofStrings strings) _ _ _ h2
  obtain ⟨bs3, e3, l3⟩ := within_types h3
  obtain ⟨bs4, e4, l4⟩ := within_type h4
  obtain ⟨_, ⟨⟩, l5⟩ := @within_u32 (ofStrings strings) _ _ _ h5
  obtain ⟨_, ⟨⟩, l6⟩ := @within_u32 (ofStrings strings) _ _ _ h6
  obtain ⟨_, ⟨⟩, l7⟩ := @within_len (ofStrings strings) _ _ _ h7
  obtain ⟨_, ⟨⟩, l8⟩ := @within_bytes (ofStrings strings) _ _ _ _ h8
  obtain ⟨bs9, e9, l9⟩ := within_vector within_handler h9
  obtain ⟨bs10, e10, l10⟩ := within_vector within_frame h10
  refine ⟨_, by simp only [func, bind_apply, e1, e3, e4, e9, e10]; rfl, ?_⟩
  simp only [length_append]
  omega

end

end Pool

namespace CodeUnit

/-! ## Sections -/

section

variable {c c' : Cursor} {s : Text} {xs ys : List Text}

theorem run_name
    (h : ExceptT.run (liftM Reader.name : Reader EntryFault Text) c = (.ok s, c')) :
    s.isUtf8 ∧ (name s).length + c'.rest.length ≤ c.rest.length := by
  obtain ⟨size, c₁, hsize, h⟩ := run_bind_eq_ok.mp (run_lift_ok.mp h)
  obtain ⟨bs, c₂, hbs, h⟩ := run_bind_eq_ok.mp h
  dsimp only at h
  split at h
  next hutf8 =>
    cases h
    obtain ⟨hrest, hlen, -⟩ := run_bytes_eq_ok.mp hbs
    have hle := length_u32_le hsize (UInt32.le_refl size)
    have hname : name ⟨bs⟩ = u32 size ++ bs := by
      rw [name, len, Text.size, hlen, UInt32.ofNat_toNat]
    refine ⟨hutf8, ?_⟩
    rw [hrest, length_append] at hle
    rw [hname, length_append]
    omega
  next => cases h

theorem run_names {n : Nat}
    (h : ExceptT.run (Reader.times (liftM Reader.name : Reader EntryFault Text) n) c =
      (.ok xs, c')) :
    xs.length = n ∧ (∀ s ∈ xs, s.isUtf8) ∧
      (xs.flatMap name).length + c'.rest.length ≤ c.rest.length := by
  induction n generalizing c xs with
  | zero =>
    cases h
    exact ⟨rfl, by simp, by simp⟩
  | succ n ih =>
    obtain ⟨s, c₁, hs, h⟩ := run_bind_eq_ok.mp h
    obtain ⟨rest, c₂, hrest, h⟩ := run_bind_eq_ok.mp h
    cases h
    obtain ⟨rfl, hutf8, hlen⟩ := ih hrest
    obtain ⟨hs, hlen'⟩ := run_name hs
    refine ⟨rfl, forall_mem_cons.mpr ⟨hs, hutf8⟩, ?_⟩
    rw [flatMap_cons, length_append]
    omega

/-- A list that leaves out names of another takes no more bytes. -/
theorem length_names_le (h : xs.Sublist ys) (hlen : ys.length < 2 ^ 32) :
    (Wire.vector name xs).length ≤ (Wire.vector name ys).length := by
  have hle := h.length_le
  have hcount := length_u32_le (reads_u32 (UInt32.ofNat ys.length) [] 0)
    (w := UInt32.ofNat xs.length) (by
      rw [UInt32.le_iff_toNat_le, UInt32.toNat_ofNat_of_lt' hlen,
        UInt32.toNat_ofNat_of_lt' (show xs.length < 2 ^ 32 by omega)]
      exact hle)
  have hnames : (xs.flatMap name).length ≤ (ys.flatMap name).length :=
    (h.flatMap name).length_le
  simp only [append_nil, length_nil] at hcount
  simp only [Wire.vector, len, length_append]
  omega

end

/-- A table that is written with the strings of a pool only, in a number of bytes that 32 bits
count. -/
def Rewrites {α : Type} (w : α → StateM Pool Bytes) (items : List α) (strings : List Text) : Prop :=
  ∃ bs, Pool.vector w items (Pool.ofStrings strings) = (bs, Pool.ofStrings strings) ∧
    bs.length < 2 ^ 32

/-- A unit as far as it was read: what is there can be written again, and nothing that refers to
strings comes before them. -/
structure Settled (last : UInt8) (u : CodeUnit) : Prop where
  names : ∀ s ∈ u.strings, s.isUtf8
  strings : (Wire.vector name (Pool.ofStrings u.strings)).length < 2 ^ 32
  classes : Rewrites Pool.classDecl u.classes u.strings
  symbols : Rewrites Pool.symbol u.symbols u.strings
  records : Rewrites Pool.layout u.records u.strings
  functions : Rewrites Pool.func u.functions u.strings
  custom : ∀ c ∈ u.custom, c.name.isUtf8 ∧ (name c.name ++ c.data).length < 2 ^ 32
  later : last < Section.strings.id →
    u.classes = [] ∧ u.symbols = [] ∧ u.records = [] ∧ u.functions = []

section

variable {α : Type} {w : α → StateM Pool Bytes} {items : List α} {strings : List Text}
  {u u' v : CodeUnit} {s : Section} {last : UInt8} {data : Bytes} {parts : List Part} {c c' : Cursor}

theorem rewrites_nil : Rewrites w [] strings :=
  ⟨len 0 ++ [], rfl, by decide⟩

theorem settled_empty : Settled 0 {} where
  names := by simp
  strings := by decide
  classes := rewrites_nil
  symbols := rewrites_nil
  records := rewrites_nil
  functions := rewrites_nil
  custom := by simp
  later := fun _ => ⟨rfl, rfl, rfl, rfl⟩

theorem Rewrites.of_within (h : Within (ofStrings strings) c c' (Pool.vector w items))
    (hsize : c.rest.length < 2 ^ 32) : Rewrites w items strings := by
  obtain ⟨bs, hbs, hlen⟩ := h
  exact ⟨bs, hbs, by omega⟩

theorem payload_eq_ok (h : Read.payload u s data = .ok u') :
    ∃ c, ExceptT.run (Read.contents u s) ⟨data, 0⟩ = (.ok u', c) := by
  unfold Read.payload Reader.run at h
  split at h
  next => cases h
  next v c hrun =>
    split at h
    next =>
      cases h
      exact ⟨c, hrun⟩
    next => cases h

/-- **A section leaves the unit settled.** -/
theorem Settled.payload (hu : Settled last u) (order : s = .custom ∨ last < s.id)
    (size : data.length < 2 ^ 32) (h : Read.payload u s data = .ok u') :
    Settled (if s = .custom then last else s.id) u' := by
  obtain ⟨c, h⟩ := payload_eq_ok h
  have hlater (hs : s ≠ .custom) :
      ¬ (if s = .custom then last else s.id) < Section.strings.id := by
    rw [if_neg hs]
    cases s <;> first | contradiction | decide
  cases s with
  | custom =>
    obtain ⟨t, c₁, ht, h⟩ := run_bind_eq_ok.mp h
    obtain ⟨bs, c₂, hbs, h⟩ := run_bind_eq_ok.mp h
    cases h
    obtain ⟨hutf8, hlen⟩ := run_name (run_adapt_ok.mp ht)
    have hrest : ExceptT.run (Reader.bytes c₁.rest.length) c₁ = (.ok bs, c) :=
      run_lift_ok.mp (run_adapt_ok.mp hbs)
    obtain ⟨-, hbs, -⟩ := run_bytes_eq_ok.mp hrest
    refine { hu with custom := ?_ }
    rw [forall_mem_append, forall_mem_singleton]
    refine ⟨hu.custom, hutf8, ?_⟩
    rw [length_append, hbs]
    exact Nat.lt_of_le_of_lt hlen size
  | strings =>
    obtain ⟨xs, c₁, hxs, h⟩ := run_bind_eq_ok.mp h
    cases h
    have hxs := run_adapt_ok (r := Read.vector (liftM Reader.name)).mp hxs
    obtain ⟨n, c₂, hn, hxs⟩ := run_bind_eq_ok.mp hxs
    obtain ⟨rfl, hutf8, hlen⟩ := run_names hxs
    obtain ⟨_, ⟨⟩, hcount⟩ := @within_len [] _ _ _ hn
    have hmany : xs.length < 2 ^ 32 := by
      have := (length_names xs).1
      simp only at hcount
      omega
    obtain ⟨hc, hs, hr, hf⟩ := hu.later (order.resolve_left (by decide))
    refine ⟨hutf8, ?_, ?_, ?_, ?_, ?_, hu.custom, fun h => absurd h (hlater (by decide))⟩
    · have := length_names_le (ofStrings_spec xs).1 hmany
      simp only [Wire.vector, length_append] at this ⊢
      simp only at hcount
      omega
    · exact hc ▸ rewrites_nil
    · exact hs ▸ rewrites_nil
    · exact hr ▸ rewrites_nil
    · exact hf ▸ rewrites_nil
  | classes =>
    obtain ⟨xs, c₁, hxs, h⟩ := run_bind_eq_ok.mp h
    cases h
    exact { hu with
      classes := .of_within (within_vector within_classDecl (run_adapt_ok.mp hxs)) size
      later := fun h => absurd h (hlater (by decide)) }
  | symbols =>
    obtain ⟨xs, c₁, hxs, h⟩ := run_bind_eq_ok.mp h
    cases h
    exact { hu with
      symbols := .of_within (within_vector within_symbol (run_adapt_ok.mp hxs)) size
      later := fun h => absurd h (hlater (by decide)) }
  | records =>
    obtain ⟨xs, c₁, hxs, h⟩ := run_bind_eq_ok.mp h
    cases h
    exact { hu with
      records := .of_within (within_vector within_layout (run_adapt_ok.mp hxs)) size
      later := fun h => absurd h (hlater (by decide)) }
  | functions =>
    obtain ⟨n, c₁, hn, h⟩ := run_bind_eq_ok.mp h
    obtain ⟨fs, c₂, hfs, h⟩ := run_bind_eq_ok.mp h
    cases h
    have hvector : ExceptT.run (Read.vector (Read.func u.strings)) ⟨data, 0⟩ = (.ok fs, c) :=
      run_bind_eq_ok.mpr ⟨n, c₁, run_adapt_ok.mp hn, Read.run_funcs.mp hfs⟩
    exact { hu with
      functions := .of_within (within_vector within_func hvector) size
      later := fun h => absurd h (hlater (by decide)) }

/-- Sections one after the other leave the unit settled. -/
theorem Settled.fills (hu : Settled last u) (h : Read.Fills last u parts v) :
    ∃ last, Settled last v := by
  induction h with
  | nil last u => exact ⟨last, hu⟩
  | cons order size hpay rest ih => exact ih (hu.payload order size hpay)

theorem Rewrites.pool_eq (h : Rewrites w items strings) :
    (each w items (ofStrings strings)).2 = ofStrings strings := by
  obtain ⟨bs, hbs, -⟩ := h
  exact congrArg Prod.snd hbs

theorem Rewrites.size_lt (h : Rewrites w items strings) :
    ∀ part ∈ tablePart s w items (ofStrings strings), part.2.length < 2 ^ 32 := by
  obtain ⟨bs, hbs, hlen⟩ := h
  unfold tablePart
  split
  · simp
  · rw [forall_mem_singleton, hbs]
    exact hlen

/-- A settled unit is written with its own strings. -/
theorem Settled.pool_eq (hu : Settled last u) :
    u.classPool = ofStrings u.strings ∧ u.symbolPool = ofStrings u.strings ∧
      u.recordPool = ofStrings u.strings ∧ u.pool = ofStrings u.strings := by
  have hc : u.classPool = _ := hu.classes.pool_eq
  have hs : u.symbolPool = ofStrings u.strings := by
    rw [symbolPool, hc]
    exact hu.symbols.pool_eq
  have hr : u.recordPool = ofStrings u.strings := by
    rw [recordPool, hs]
    exact hu.records.pool_eq
  refine ⟨hc, hs, hr, ?_⟩
  rw [pool, hr]
  exact hu.functions.pool_eq

theorem Settled.writable (hu : Settled last u) : u.Writable := by
  obtain ⟨hc, hs, hr, hp⟩ := hu.pool_eq
  refine ⟨?_, ?_, fun c h => (hu.custom c h).1⟩
  · unfold parts
    rw [hc, hs, hr, hp]
    simp only [forall_mem_append, forall_mem_map]
    refine ⟨fun c h => (hu.custom c h).2, ?_, hu.classes.size_lt, hu.symbols.size_lt,
      hu.records.size_lt, hu.functions.size_lt⟩
    unfold poolPart
    split
    · simp
    · exact forall_mem_singleton.mpr hu.strings
  · rw [hp]
    exact fun s h => hu.names s ((ofStrings_spec u.strings).1.subset h)

/-- A unit that was read is settled, and its bodies were checked. -/
theorem settled_of_parse (h : parse data = .ok u) :
    (∃ last, Settled last u) ∧ u.checkBodies = .ok () := by
  obtain ⟨v, hwhole, h⟩ := bind_eq_ok.mp h
  obtain ⟨_, hbodies, h⟩ := bind_eq_ok.mp h
  cases h
  refine ⟨?_, hbodies⟩
  obtain ⟨c, hrun⟩ : ∃ c, ExceptT.run (Read.whole data.length) ⟨data, 0⟩ = (.ok u, c) :=
    ⟨_, Prod.ext hwhole rfl⟩
  obtain ⟨magic, c₁, -, hrun⟩ := run_bind_eq_ok.mp hrun
  split at hrun
  next => cases hrun
  obtain ⟨version, c₂, -, hrun⟩ := run_bind_eq_ok.mp hrun
  split at hrun
  next => cases hrun
  obtain ⟨parts, hparts⟩ := Read.exists_fills hrun
  exact settled_empty.fills hparts

end

end CodeUnit

end Resumable
