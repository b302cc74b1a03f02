import Resumable.Proofs.CodeUnit.Body
import Resumable.Proofs.CodeUnit.Rewriting

/-!
# Writing a unit that was read

Bodies hold places of the pool, and they are written as they are. The pool is written without
repetition. A string that stands twice in the pool therefore moves all strings behind its second
place, and the bodies do not follow. This is the only way in which a unit that was read can change
when it is written and read once more.
-/

namespace Resumable

open List

/-- The place in the pool that an instruction names. -/
def Instr.string? : Instr → Option UInt32
  | .sconst n | .checkcast n | .instanceof n => some n
  | _ => none

namespace CodeUnit

variable {u v : CodeUnit} {data : Bytes} {n : UInt32}

/-- A body of the unit names a place in the pool. -/
def Names (u : CodeUnit) (n : UInt32) : Prop :=
  ∃ f ∈ u.functions, ∃ is, Instr.decodeAll f.code = .ok is ∧ ∃ i ∈ is, i.string? = some n

/-- The same unit but for its pool, where the bodies find the strings that they name. -/
structure SameMeaning (u v : CodeUnit) : Prop where
  classes : v.classes = u.classes
  symbols : v.symbols = u.symbols
  records : v.records = u.records
  functions : v.functions = u.functions
  custom : v.custom = u.custom
  strings : ∀ n, u.Names n → item? v.strings n = item? u.strings n

/-- An instruction refers to other things than strings of the pool, or to the string it names. -/
theorem refers_of_strings {i : Instr} {locals : UInt32} {strings : List Text}
    (h : i.Refers u locals) (hi : ∀ n, i.string? = some n → item? strings n = item? u.strings n) :
    i.Refers { u with strings } locals := by
  have hstring (n : UInt32) (hn : i.string? = some n) (h : ∃ s, item? u.strings n = some s) :
      ∃ s, item? strings n = some s := by
    rwa [hi n hn]
  cases i with
  | sconst n | checkcast n | instanceof n => exact hstring n rfl h
  | _ => exact h

theorem checkBodies_eq_ok :
    u.checkBodies = .ok () ↔ ∀ f ∈ u.functions, ∃ is, u.bodyOf f = .ok is := by
  unfold checkBodies
  refine forM_eq_ok.trans (forall₂_congr fun f _ => ?_)
  cases u.bodyOf f <;> simp

/-- Every place that a checked body names is in the pool. -/
theorem Names.lt (h : u.Names n) (hbodies : u.checkBodies = .ok ()) : n.toNat < u.strings.length := by
  obtain ⟨f, hf, is, his, i, hi, hn⟩ := h
  obtain ⟨is', hbody⟩ := checkBodies_eq_ok.mp hbodies f hf
  obtain ⟨hdecode, -, -, hrefers, -⟩ := bodyOf_eq_ok.mp hbody
  obtain rfl : is = is' := Except.ok.inj (his.symm.trans hdecode)
  have hrefers := (hrefers i hi).2
  cases i <;> cases hn <;> exact exists_item?_iff.mp hrefers

/-- Bodies that find their strings in another pool pass their checks with it. -/
theorem checkBodies_of_strings {strings : List Text} (hbodies : u.checkBodies = .ok ())
    (h : ∀ n, u.Names n → item? strings n = item? u.strings n) :
    ({ u with strings } : CodeUnit).checkBodies = .ok () := by
  rw [checkBodies_eq_ok] at hbodies ⊢
  intro f hf
  obtain ⟨is, hbody⟩ := hbodies f hf
  obtain ⟨hdecode, hne, hparams, hinstrs, hhandlers⟩ := bodyOf_eq_ok.mp hbody
  refine ⟨is, bodyOf_eq_ok.mpr ⟨hdecode, hne, hparams, fun i hi => ⟨(hinstrs i hi).1, ?_⟩, hhandlers⟩⟩
  exact refers_of_strings (hinstrs i hi).2 fun n hn => h n ⟨f, hf, is, hdecode, i, hi, hn⟩

/-- What is read back of a unit that was read. -/
theorem parse_encode_eq_ok (h : parse data = .ok u) :
    parse u.encode = .ok v ↔ v = { u with strings := Pool.ofStrings u.strings } ∧
      ({ u with strings := Pool.ofStrings u.strings } : CodeUnit).checkBodies = .ok () := by
  obtain ⟨⟨last, hsettled⟩, -⟩ := settled_of_parse h
  rw [hsettled.writable.parse_encode, hsettled.pool_eq.2.2.2]
  simp only [bind_eq_ok, pure_eq_ok]
  constructor
  · rintro ⟨_, hbodies, rfl⟩
    exact ⟨rfl, hbodies⟩
  · rintro ⟨rfl, hbodies⟩
    exact ⟨(), hbodies, rfl⟩

/-- A unit with one function, which returns the string at place 2 of the pool. -/
def thirdString (strings : List Text) : CodeUnit where
  strings := strings
  functions := [{ name := "f", result := .ref "String", code := [0x02, 0x02, 0x51], maxStack := 1 }]

theorem names_thirdString {strings : List Text} : (thirdString strings).Names n ↔ n = 2 := by
  have hbody : Instr.decodeAll [0x02, 0x02, 0x51] = .ok [.sconst 2, .retval] := by decide +kernel
  constructor
  · rintro ⟨f, hf, is, his, i, hi, hn⟩
    obtain rfl := mem_singleton.mp hf
    obtain rfl := Except.ok.inj (hbody.symm.trans his)
    rcases mem_pair.mp hi with rfl | rfl <;> cases hn
    rfl
  · rintro rfl
    exact ⟨_, mem_singleton.mpr rfl, _, hbody, .sconst 2, mem_cons_self, rfl⟩

/-- **When writing and reading once more keeps the meaning of a unit that was read.** It does if and
only if no string stands twice in the pool up to any place that a body names. -/
theorem exists_sameMeaning_iff (h : parse data = .ok u) :
    (∃ v, parse u.encode = .ok v ∧ u.SameMeaning v) ↔
      ∀ n, u.Names n → (u.strings.take (n.toNat + 1)).Nodup := by
  obtain ⟨-, hbodies⟩ := settled_of_parse h
  have hstays (n : UInt32) (hn : u.Names n) :
      item? (Pool.ofStrings u.strings) n = item? u.strings n ↔
        (u.strings.take (n.toNat + 1)).Nodup :=
    Pool.item?_ofStrings_eq_iff (hn.lt hbodies)
  constructor
  · rintro ⟨v, hv, hsame⟩ n hn
    obtain ⟨rfl, -⟩ := (parse_encode_eq_ok h).mp hv
    exact (hstays n hn).mp (hsame.strings n hn)
  · intro hnodup
    have hstrings n (hn : u.Names n) := (hstays n hn).mpr (hnodup n hn)
    refine ⟨_, (parse_encode_eq_ok h).mpr ⟨rfl, checkBodies_of_strings hbodies hstrings⟩, ?_⟩
    exact ⟨rfl, rfl, rfl, rfl, rfl, hstrings⟩

/-- Strings that stand twice behind all named places do no harm. -/
theorem exists_sameMeaning_late_repetition :
    let u := thirdString ["f", "String", "x", "y", "y"]
    parse [0x43, 0x59, 0x53, 0x41, 0x01, 0x00, 0x00, 0x00, 0x01, 0x10, 0x05, 0x01, 0x66, 0x06, 0x53,
        0x74, 0x72, 0x69, 0x6e, 0x67, 0x01, 0x78, 0x01, 0x79, 0x01, 0x79, 0x05, 0x0e, 0x01, 0x00, 0x00,
        0x00, 0x04, 0x01, 0x01, 0x00, 0x03, 0x02, 0x02, 0x51, 0x00, 0x00] = .ok u ∧
      ∃ v, parse u.encode = .ok v ∧ u.SameMeaning v := by
  intro u
  refine (fun h => ⟨h, (exists_sameMeaning_iff h).mpr fun n hn => ?_⟩) ?_
  · decide +kernel
  · rw [names_thirdString.mp hn]
    decide

/-- A string that stands twice before a named place makes the body name another one: this function
returns `x`, and `y` when its unit was written and read once more. -/
theorem parse_encode_moves_string :
    let u := thirdString ["f", "f", "x", "y", "String"]
    let v := thirdString ["f", "x", "y", "String"]
    parse [0x43, 0x59, 0x53, 0x41, 0x01, 0x00, 0x00, 0x00, 0x01, 0x10, 0x05, 0x01, 0x66, 0x01, 0x66,
        0x01, 0x78, 0x01, 0x79, 0x06, 0x53, 0x74, 0x72, 0x69, 0x6e, 0x67, 0x05, 0x0e, 0x01, 0x00, 0x00,
        0x00, 0x04, 0x04, 0x01, 0x00, 0x03, 0x02, 0x02, 0x51, 0x00, 0x00] = .ok u ∧
      parse u.encode = .ok v ∧ u.Names 2 ∧ item? u.strings 2 = some "x" ∧
      item? v.strings 2 = some "y" := by
  exact ⟨by decide +kernel, by decide +kernel, names_thirdString.mpr rfl, rfl, rfl⟩

end CodeUnit

end Resumable
