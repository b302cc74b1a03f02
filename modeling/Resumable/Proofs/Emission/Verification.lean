import Mathlib.Data.List.Basic
import Resumable.Proofs.Attempt
import Resumable.Transform

/-!
# What verification asks for

A function is accepted if its body passes its checks, its declared bounds are no less than what its
code needs, and its frame table is the one that the analysis finds. A continuation may be refused
even though the function that it is made from is typed: a local that a handler reads is not live, and
so not captured, where it is about to be written, but it flows into the handler from there.
-/

namespace Resumable

open List

theorem FrameEntry.compare_eq_ok {d c : FrameEntry} {k : Nat} : d.compare c k = .ok () ↔ d = c := by
  obtain ⟨pc, ls, st⟩ := d
  obtain ⟨pc', ls', st'⟩ := c
  unfold compare
  constructor
  · intro h
    split at h
    · cases h
    split at h
    · cases h
    split at h
    · cases h
    simp_all
  · intro h
    cases h
    simp

theorem compareFrames_eq_ok {declared found : List FrameEntry} :
    compareFrames declared found = .ok () ↔ declared = found := by
  unfold compareFrames
  split
  next hlen => exact iff_of_false (fun h => by cases h) fun h => hlen (congrArg length h)
  next hlen =>
    have hlen := Decidable.not_not.mp hlen
    refine (forM_zipIdx_eq_ok fun q k => FrameEntry.compare_eq_ok).trans ?_
    constructor
    · intro h
      refine ext_getElem hlen fun i h1 h2 => ?_
      exact h (declared[i], found[i])
        (mem_iff_getElem.mpr ⟨i, by rw [length_zip]; omega, getElem_zip⟩)
    · rintro rfl q hq
      obtain ⟨i, hi, rfl⟩ := mem_iff_getElem.mp hq
      simp

/-- **When verification accepts a function.** -/
theorem Analyzer.verify_eq_ok {a : Analyzer} {f : Func} :
    a.verify f = .ok () ↔ ∃ is bound, a.unit.bodyOf f = .ok is ∧
      a.unit.stackBound is f.handlers = .ok bound ∧ bound ≤ f.maxStack ∧
      localsNeeded is f.params.length 0 ≤ f.maxLocals ∧ a.blockFrames f is = .ok f.frames := by
  have hguard {c : Prop} [Decidable c] {e : VerifyFault} :
      (if c then throw e else pure () : Except VerifyFault Unit) = .ok () ↔ ¬ c := by
    split <;> simp_all [throw, throwThe, MonadExceptOf.throw, pure, Except.pure]
  unfold verify
  simp only [Attempt.mapError_eq_ok_iff, bind_eq_ok, Attempt.ofExcept_eq_ok, mapError_eq_ok,
    compareFrames_eq_ok, guarded_eq_ok, UInt32.not_lt, hguard]
  constructor
  · rintro ⟨is, his, bound, hbound, _, ⟨hstack, hlocals⟩, found, hfound, rfl⟩
    exact ⟨is, bound, his, hbound, hstack, hlocals, hfound⟩
  · rintro ⟨is, bound, his, hbound, hstack, hlocals, hfound⟩
    exact ⟨is, his, bound, hbound, (), ⟨hstack, hlocals⟩, f.frames, hfound, rfl⟩

/-- Keeps a future in local 1 and awaits it, and then writes local 1 under a handler that reads
it. -/
def shelterFunc : Func where
  name := "f"
  params := [.ref "Future"]
  result := .ref "Future"
  code := [0x10, 0x00, 0x11, 0x01, 0x10, 0x00, 0x40, 0x00, 0x11, 0x01, 0x00, 0x10, 0x00, 0x51,
    0x18, 0x10, 0x01, 0x18, 0x10, 0x00, 0x51]
  handlers := [{ start := 4, stop := 6, target := 8, cls := ∅, region := 0, kind := 0 }]
  maxStack := 1
  maxLocals := 2

def shelterUnit : CodeUnit where
  strings := ["f", "async/Await", "await", "Future", "Object"]
  symbols := [
    { owner := "async/Await", name := "await", params := [.ref "Future"], result := .ref "Object" }]
  functions := [shelterFunc]

/-- The plan of `shelterFunc` captures local 0 only, and its continuation is refused because the
handler reads local 1. -/
theorem Transform.bytes_refuses_continuation :
    CodeUnit.parse shelterUnit.encode = .ok shelterUnit ∧
      (∃ plan p, Plan.ofFunction shelterUnit .none .standard 0 = .ok (some plan) ∧
        plan.points = [p] ∧ p.instr = 3 ∧ p.live = [0]) ∧
      (Transform.bytes {} shelterUnit.encode).outcome.1 =
        .error (.error (.verify "f$async" (some (.ofReport
          { phase := .analyze, problem := .typeMismatch, function := "f$async", instr := 24
            detail := "read of unusable local 1" })))) := by
  refine ⟨by decide +kernel, ?_, by decide +kernel⟩
  have hpoints : ((Plan.ofFunction shelterUnit .none .standard 0).toOption.join.map fun plan =>
      plan.points.map fun p => (p.instr, p.live)) = some [(3, [0])] := by decide +kernel
  generalize Plan.ofFunction shelterUnit .none .standard 0 = found at hpoints ⊢
  rcases found with _ | _ | plan
  · cases hpoints
  · cases hpoints
  · obtain ⟨p, hp, h⟩ := List.map_eq_singleton_iff.mp (Option.some.inj hpoints)
    obtain ⟨hinstr, hlive⟩ := Prod.mk.inj h
    exact ⟨plan, p, rfl, hp, hinstr, hlive⟩

end Resumable
