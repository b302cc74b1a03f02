import Resumable.CodeUnit.Body
import Resumable.Proofs.Attempt
import Resumable.Proofs.Table

/-!
# Checked bodies

When the body of a function passes its checks, every branch leads into the body, every operand
refers to something that is there, and every handler has a range and a target in the body. The
checks ask for nothing else.
-/

namespace Resumable

/-- Every operand of an instruction refers to a local or to a member of a table. -/
def Instr.Refers (u : CodeUnit) (locals : UInt32) : Instr → Prop
  | .load n | .store n => n < locals
  | .sconst n | .checkcast n | .instanceof n => ∃ s, item? u.strings n = some s
  | .invoke n => ∃ s, item? u.symbols n = some s
  | .newrec n => ∃ l, item? u.records n = some l
  | .recget n f => ∃ l t, item? u.records n = some l ∧ item? l.fields f = some t
  | _ => True

/-- The same, with a condition on the locals that need not be a bound. -/
def Instr.RefersTo (u : CodeUnit) (ok : UInt32 → Prop) : Instr → Prop
  | .load n | .store n => ok n
  | .sconst n | .checkcast n | .instanceof n => ∃ s, item? u.strings n = some s
  | .invoke n => ∃ s, item? u.symbols n = some s
  | .newrec n => ∃ l, item? u.records n = some l
  | .recget n f => ∃ l t, item? u.records n = some l ∧ item? l.fields f = some t
  | _ => True

namespace Instr

variable {u : CodeUnit} {locals n : UInt32} {i : Instr}

theorem refers_iff : i.Refers u locals ↔ i.RefersTo u (· < locals) := by
  cases i <;> exact Iff.rfl

theorem Refers.slot_lt (h : i.Refers u locals) (hn : i.slot? = some n) : n < locals := by
  cases i with
  | load m | store m =>
    cases hn
    exact h
  | _ => cases hn

/-- The condition on the locals can be changed for those that an instruction names. -/
theorem RefersTo.weaken {P Q : UInt32 → Prop} (h : i.RefersTo u P)
    (hPQ : ∀ n, i.slot? = some n → P n → Q n) : i.RefersTo u Q := by
  cases i with
  | load n | store n => exact hPQ n rfl h
  | _ => exact h

end Instr

/-- A handler with a range and a target in a body. -/
structure Handler.Within (h : Handler) (count : Nat) : Prop where
  range : h.start < h.stop
  stop : h.stop.toNat ≤ count
  target : h.target.toNat < count
  kind : h.kind = Handler.catchKind ∨ h.kind = Handler.cleanupKind

namespace CodeUnit

variable {u : CodeUnit} {f : Func} {is : List Instr}

theorem ok_of_ite {c : Prop} [Decidable c] {fault : BodyFault} :
    (if c then .ok () else .error fault) = Except.ok () ↔ c := by
  split <;> simp_all

theorem checkOperands_eq_ok {locals : UInt32} {pc : Nat} {i : Instr} :
    u.checkOperands locals pc i = .ok () ↔ i.Refers u locals := by
  cases i with
  | load n | store n => exact ok_of_ite
  | sconst n | checkcast n | instanceof n | invoke n => exact ok_of_ite.trans exists_item?_iff.symm
  | newrec n => exact ok_of_ite.trans exists_item?_iff.symm
  | recget n f =>
    unfold checkOperands Instr.Refers
    dsimp only
    cases hl : item? u.records n with
    | none => simp
    | some l =>
      simp only [ok_of_ite, ← exists_item?_iff, Option.some.injEq]
      simp
  | _ => exact iff_of_true rfl trivial

theorem checkInstr_eq_ok {locals : UInt32} {count pc : Nat} {i : Instr} :
    u.checkInstr locals count pc i = .ok () ↔
      (∀ t ∈ i.targets, t.toNat < count) ∧ i.Refers u locals := by
  unfold checkInstr
  cases ht : i.targets.find? (fun t => count ≤ t.toNat) with
  | none =>
    rw [List.find?_eq_none] at ht
    rw [← @checkOperands_eq_ok u locals pc]
    exact ⟨fun h => ⟨fun t hmem => by simpa using ht t hmem, h⟩, fun h => h.2⟩
  | some t =>
    have hmem := List.mem_of_find?_eq_some ht
    have hle := List.find?_some ht
    simp only [decide_eq_true_eq] at hle
    refine iff_of_false (fun h => by cases h) fun h => ?_
    exact Nat.not_lt.mpr hle (h.1 t hmem)

theorem checkHandler_eq_ok {count k : Nat} {h : Handler} :
    checkHandler count k h = .ok () ↔ h.Within count := by
  unfold checkHandler
  constructor
  · intro hok
    split at hok
    · cases hok
    split at hok
    · cases hok
    split at hok
    · cases hok
    rename_i h1 h2 h3
    simp only [Bool.or_eq_true, Bool.and_eq_true, decide_eq_true_eq, not_or, not_and] at h1 h2 h3
    refine ⟨UInt32.not_le.mp h1.1, by omega, by omega, ?_⟩
    by_cases hk : h.kind = Handler.catchKind
    · exact .inl hk
    · exact .inr (Decidable.not_not.mp (h3 hk))
  · intro hw
    have h1 : ¬ h.stop ≤ h.start := UInt32.not_le.mpr hw.range
    have h2 : ¬ count < h.stop.toNat := Nat.not_lt.mpr hw.stop
    have h3 : ¬ count ≤ h.target.toNat := Nat.not_le.mpr hw.target
    have h4 : ¬ (h.kind ≠ Handler.catchKind ∧ h.kind ≠ Handler.cleanupKind) := by
      rintro ⟨h5, h6⟩
      exact hw.kind.elim h5 h6
    rw [if_neg (by simp [h1, h2]), if_neg h3, if_neg (by simpa using h4)]

/-- **What the checks of a body ask for.** -/
theorem bodyOf_eq_ok :
    u.bodyOf f = .ok is ↔ Instr.decodeAll f.code = .ok is ∧ is ≠ [] ∧
      f.params.length ≤ f.maxLocals.toNat ∧
      (∀ i ∈ is, (∀ t ∈ i.targets, t.toNat < is.length) ∧ i.Refers u f.maxLocals) ∧
      ∀ h ∈ f.handlers, h.Within is.length := by
  unfold bodyOf
  simp only [bind_eq_ok, mapError_eq_ok, guarded_eq_ok, pure_eq_ok]
  constructor
  · rintro ⟨_, hdecode, hne, hparams, _, hi, _, hh, rfl⟩
    exact ⟨hdecode, by simpa using hne, Nat.not_lt.mp hparams,
      (forM_zipIdx_eq_ok fun i pc => checkInstr_eq_ok).mp hi,
      (forM_zipIdx_eq_ok fun h k => checkHandler_eq_ok).mp hh⟩
  · rintro ⟨hdecode, hne, hparams, hi, hh⟩
    exact ⟨is, hdecode, by simpa using hne, Nat.not_lt.mpr hparams,
      (), (forM_zipIdx_eq_ok fun i pc => checkInstr_eq_ok).mpr hi,
      (), (forM_zipIdx_eq_ok fun h k => checkHandler_eq_ok).mpr hh, rfl⟩

end CodeUnit

end Resumable
