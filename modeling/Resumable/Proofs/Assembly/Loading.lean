import Resumable.Proofs.Assembly.Assembled
import Resumable.Proofs.CodeUnit.Acceptance
import Resumable.Proofs.CodeUnit.Completion

/-!
# Assembled units as bytes

Names of an assembled unit are identifiers, so all that can keep its bytes from being read is a string
literal: an escape may spell a byte that is no part of UTF-8.
-/

namespace Resumable

open Assembly List

/-! ## Names are UTF-8 -/

theorem Assembly.IsWord.isUtf8 {t : Text} (h : IsWord t) : t.isUtf8 := by
  obtain ⟨cs, rfl, -⟩ := h
  exact Text.isUtf8_ofChars cs

/-- A name that may be absent. -/
theorem isUtf8_of_given {t s : Text} (h : t = ∅ ∨ IsIdent t) (hs : s ∈ t.given) : s.isUtf8 := by
  unfold Text.given at hs
  split at hs
  next => cases hs
  next hne =>
    obtain rfl := mem_singleton.mp hs
    rcases h with rfl | h
    · exact absurd rfl hne
    · exact h.isWord.isUtf8

theorem Ty.Spelled.isUtf8_names {t : Ty} (h : t.Spelled) : ∀ s ∈ t.names, s.isUtf8 := by
  intro s hs
  cases t with
  | ref cls =>
    obtain rfl := mem_singleton.mp hs
    exact h.ident.isWord.isUtf8
  | _ => cases hs

theorem isUtf8_of_types {ts : List Ty} (h : ∀ t ∈ ts, t.Spelled) :
    ∀ s ∈ ts.flatMap Ty.names, s.isUtf8 :=
  forall_mem_flatMap.mpr fun t ht => (h t ht).isUtf8_names

namespace CodeUnit

variable {u : CodeUnit}

theorem Spelled.isUtf8_names (h : u.Spelled) : ∀ s ∈ u.names, s.isUtf8 := by
  simp only [CodeUnit.names, forall_mem_append, forall_mem_flatMap]
  refine ⟨⟨⟨fun c hc => ?_, fun s hs => ?_⟩, fun l hl => ?_⟩, fun f hf => ?_⟩
  · have hc := h.classes c hc
    exact forall_mem_cons.mpr ⟨hc.name.isWord.isUtf8,
      fun s => isUtf8_of_given (hc.super.imp_right And.left)⟩
  · have hs := h.symbols s hs
    simp only [Symbol.names, forall_mem_append, forall_mem_cons]
    exact ⟨fun t => isUtf8_of_given (hs.owner.imp_right And.left), hs.name.isUtf8,
      isUtf8_of_types hs.params, hs.result.isUtf8_names⟩
  · have hl := h.records l hl
    exact forall_mem_cons.mpr ⟨hl.function.isWord.isUtf8, isUtf8_of_types hl.fields⟩
  · have hf := h.functions f hf
    simp only [Func.names, forall_mem_append, forall_mem_cons]
    refine ⟨hf.name.isUtf8, ⟨⟨isUtf8_of_types hf.params, hf.result.isUtf8_names⟩, ?_⟩, ?_⟩
    · exact forall_mem_flatMap.mpr fun c hc t =>
        isUtf8_of_given ((hf.handlers c hc).named.imp_right And.left)
    · exact forall_mem_flatMap.mpr fun x hx => forall_mem_append.mpr
        ⟨isUtf8_of_types (hf.frames x hx).locals, isUtf8_of_types (hf.frames x hx).stack⟩

/-- The names that are written are those of the pool and those of the tables. -/
theorem isUtf8_pool_iff (hu : u.Spelled) (hnodup : u.strings.Nodup) :
    (∀ s ∈ u.pool, s.isUtf8) ↔ ∀ s ∈ u.strings, s.isUtf8 := by
  have hpool : u.pool = Pool.internAll u.names u.strings := by
    rw [pool_eq_internAll, Pool.ofStrings_eq_self hnodup]
  rw [hpool]
  refine ⟨fun h s hs => h s ((Pool.internAll_grows u.names u.strings).mem hs), fun h s hs => ?_⟩
  rcases Pool.mem_internAll hs with hs | hs
  · exact h s hs
  · exact hu.isUtf8_names s hs

end CodeUnit

namespace Assembly

/-- **Text that was assembled is read back from its bytes**, with all names in the pool, just when its
strings are UTF-8. -/
theorem parse_encode_iff_isUtf8 {source : Text} {u : CodeUnit} (h : parse source = .ok u)
    (hbodies : ∀ f ∈ u.functions, ∃ is, u.bodyOf f = .ok is) (hsize : u.encode.length < 2 ^ 32) :
    (CodeUnit.parse u.encode = .ok u.completed ↔ ∀ s ∈ u.strings, s.isUtf8) ∧
      ∀ v, CodeUnit.parse u.encode = .ok v → v = u.completed := by
  obtain ⟨_, _, hparsed⟩ := exists_parsed h
  obtain ⟨⟨_, -, hu⟩, -⟩ := hparsed.assembled
  have hpool := CodeUnit.pool_eq_completed hu.nodup
  refine ⟨⟨fun hparse => ?_, fun hutf8 => ?_⟩, fun v hv => ?_⟩
  · exact (CodeUnit.isUtf8_pool_iff hu.spelled hu.nodup).mp
      (CodeUnit.writable_of_parse hsize hparse).names
  · have hwritable : u.Writable :=
      { sizes := CodeUnit.sizes_lt hsize
        names := (CodeUnit.isUtf8_pool_iff hu.spelled hu.nodup).mpr hutf8
        custom := by simp [hu.spelled.custom] }
    have hchecked := CodeUnit.checkBodies_eq_ok.mpr hbodies
    rw [hwritable.parse_encode, hpool]
    refine bind_eq_ok.mpr ⟨(), ?_, rfl⟩
    -- Names are put behind the strings, so bodies find those where they were.
    refine CodeUnit.checkBodies_of_strings hchecked fun n hn => ?_
    obtain ⟨s, hs⟩ := exists_item?_iff.mpr (hn.lt hchecked)
    rw [hs]
    exact item?_mono (List.prefix_append u.strings u.missing) hs
  · rw [CodeUnit.eq_of_parse_encode hsize hv, hpool]
    rfl

/-- A string, a cast and a call. -/
def greetingSource : Text :=
  "(unit (class Reply) (import $s Mail send (param String) (result Object)) " ++
    "(func $g (result Reply) sconst \"hi\\n\" invoke $s checkcast Reply retval))"

/-- The pool has what the body names, and no other name. -/
def greetingUnit : CodeUnit where
  strings := ["hi\n", "Reply"]
  classes := [⟨"Reply", ∅⟩]
  symbols := [⟨"Mail", "send", [.ref "String"], .ref "Object"⟩]
  functions := [
    { name := "g", result := .ref "Reply", code := [0x02, 0x00, 0x40, 0x00, 0x42, 0x01, 0x51]
      maxStack := 1 }]

theorem parse_encode_iff_isUtf8_greeting :
    parse greetingSource = .ok greetingUnit ∧
      CodeUnit.parse greetingUnit.encode = .ok greetingUnit.completed := by
  have hparse : parse greetingSource = .ok greetingUnit := by decide +kernel
  have hchecked : greetingUnit.checkBodies = .ok () := by decide +kernel
  obtain ⟨hiff, -⟩ := parse_encode_iff_isUtf8 hparse (CodeUnit.checkBodies_eq_ok.mp hchecked)
    (by decide +kernel)
  exact ⟨hparse, hiff.mpr (by decide +kernel)⟩

/-- **A literal can spell a string that is not read back.** -/
theorem escaped_byte_not_read :
    ∃ u, parse "(unit (func $g (result String) sconst \"\\xff\" retval))" = .ok u ∧
      u.checkBodies = .ok () ∧ (CodeUnit.parse u.encode).toOption = none := by
  refine ⟨{ strings := [⟨[0xff]⟩], functions := [
    { name := "g", result := .ref "String", code := [0x02, 0x00, 0x51], maxStack := 1 }] }, ?_⟩
  decide +kernel

end Assembly

end Resumable
