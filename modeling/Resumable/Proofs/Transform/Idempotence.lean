import Resumable.Proofs.Transform.Effect

/-!
# A second transformation finds nothing to do

What the transformation has left as it was is left again, since the tables and the function table only
grow at their ends. What it has made is flagged, and what is flagged is left without a look at its
code, even if the code makes suspending calls. So in the bytes that come out of the transformation
every function is one that is left, and the transformation of these bytes ends with `unchanged`.
-/

namespace Resumable

open List

/-- A flag that was set is found. -/
theorem Func.isTransformed_of_flags {f : Func} {flags : UInt8}
    (h : f.flags = flags ||| transformedFlag) : f.isTransformed = true := by
  have hflag : (flags ||| transformedFlag) &&& transformedFlag = transformedFlag := by
    refine UInt8.toBitVec_inj.mp (BitVec.eq_of_getElem_eq fun i hi => ?_)
    simp only [UInt8.toBitVec_and, UInt8.toBitVec_or, BitVec.getElem_and, BitVec.getElem_or]
    cases transformedFlag.toBitVec[i] <;> simp
  rw [isTransformed, h, hflag]
  decide

namespace Transform

variable {o : TransformOptions} {u v : CodeUnit} {done : List Rewriting}

theorem Effect.names_subset (h : Effect o u done v) :
    u.functions.map Func.name ⊆ v.functions.map Func.name := by
  intro name hname
  obtain ⟨f, hf, rfl⟩ := mem_map.mp hname
  obtain ⟨i, hi⟩ := mem_iff_getElem?.mp hf
  by_cases hmem : i ∈ done.map Rewriting.index
  · obtain ⟨r, hr, rfl⟩ := mem_map.mp hmem
    obtain rfl := Option.some.inj (hi.symm.trans (h.sound r hr).place)
    exact mem_map.mpr ⟨r.after, mem_of_getElem? (h.rewritten r hr), (h.sound r hr).signed.name⟩
  · exact mem_map_of_mem (mem_of_getElem? (h.kept i f hi hmem).1)

/-- Both functions of a state machine are flagged. -/
theorem Rewriting.Sound.flagged {r : Rewriting} (h : r.Sound o u) :
    r.after.isTransformed = true ∧ r.continuation.isTransformed = true := by
  refine ⟨Func.isTransformed_of_flags h.signed.flags, ?_⟩
  rw [Func.isTransformed, h.signed.continuationFlags]
  decide

/-- **Every function of the unit that comes out is one that is left.** -/
theorem Effect.left (h : Effect o u done v) :
    ∀ f ∈ v.functions, Left o v (v.hierarchy o.loader) f := by
  intro f hf
  obtain ⟨i, hi⟩ := mem_iff_getElem?.mp hf
  rcases Nat.lt_or_ge i u.functions.length with hlt | hge
  · by_cases hmem : i ∈ done.map Rewriting.index
    · obtain ⟨r, hr, rfl⟩ := mem_map.mp hmem
      obtain rfl := Option.some.inj (hi.symm.trans (h.rewritten r hr))
      exact .done (by simp [(h.sound r hr).flagged.1])
    · obtain ⟨hsame, hleft⟩ := h.kept i _ (getElem?_eq_getElem hlt) hmem
      obtain rfl := Option.some.inj (hi.symm.trans hsame)
      rw [h.gains.hierarchy_eq]
      exact hleft.mono h.gains.extends h.names_subset
  · -- behind the functions of the unit there are continuations only
    have hdrop : (v.functions.drop u.functions.length)[i - u.functions.length]? = some f := by
      rw [getElem?_drop, Nat.add_sub_cancel' hge, hi]
    rw [h.added] at hdrop
    obtain ⟨r, hr, rfl⟩ := mem_map.mp (mem_of_getElem? hdrop)
    exact .done (by simp [(h.sound r hr).flagged.2])

/-- The functions that are left are passed by one after the other. -/
theorem succeeds_of_left {classes : Hierarchy} (h : ∀ f ∈ v.functions, Left o v classes f) :
    ((range v.functions.length).foldlM (advance o classes) { unit := v }).Succeeds
      { unit := v } := by
  refine Journaled.Succeeds.foldlM fun i hi => ?_
  obtain ⟨f, hf⟩ : ∃ f, v.functions[i]? = some f :=
    ⟨_, getElem?_eq_getElem (mem_range.mp hi)⟩
  unfold advance
  rw [hf]
  refine Journaled.Succeeds.bind (.pure f) ?_
  exact (h f (mem_of_getElem? hf)).succeeds.bind (.pure _)

theorem unit_unchanged (h : ∀ f ∈ v.functions, Left o v (v.hierarchy o.loader) f) :
    (unit o v).outcome.1 = .error (.error unchanged) := by
  obtain ⟨j, hj⟩ := succeeds_of_left h {}
  unfold Journaled.outcome unit
  rw [Journaled.run_bind, hj]
  rfl

/-- **The transformation is idempotent.** The bytes that it gives are those of a unit with state machines,
and to transform them again with the same options gives the error that there is nothing to do. Sizes are
written with 32 bits, so the bytes have to be as many as 32 bits count. -/
theorem bytes_idempotent {data out : Bytes} (hparse : CodeUnit.parse data = .ok u)
    (hnodup : u.strings.Nodup) (hverify : o.verify = true)
    (hout : (bytes o data).outcome.1 = .ok out) (hsize : out.length < 2 ^ 32) :
    isTransformed out = true ∧ (bytes o out).outcome.1 = .error (.error unchanged) := by
  obtain ⟨v, done, hv, hne, heffect, -⟩ :=
    exists_effect hparse hnodup hverify (Journaled.returns_of_outcome hout) hsize
  have hdecode : CodeUnit.decode out = .ok v := mapError_eq_ok.mpr hv
  constructor
  · obtain ⟨r, hr⟩ := List.exists_mem_of_ne_nil done hne
    have hmem := List.mem_of_getElem? (heffect.rewritten r hr)
    unfold isTransformed
    rw [hdecode]
    exact List.any_eq_true.mpr ⟨r.after, hmem, by simp [(heffect.sound r hr).flagged.1]⟩
  · unfold bytes
    rw [hdecode]
    exact unit_unchanged heffect.left

theorem bytes_idempotent_mixed :
    CodeUnit.parse mixedUnit.encode = .ok mixedUnit ∧ mixedUnit.strings.Nodup ∧
      ∃ out, (bytes {} mixedUnit.encode).outcome.1 = .ok out ∧ out.length < 2 ^ 32 ∧
        isTransformed out = true ∧ (bytes {} out).outcome.1 = .error (.error unchanged) := by
  have hnodup : mixedUnit.strings.Nodup := by decide
  obtain ⟨out, hout, hsize⟩ := exists_bytes_mixed
  exact ⟨parse_mixed, hnodup, out, hout, hsize, bytes_idempotent parse_mixed hnodup rfl hout hsize⟩

end Transform

end Resumable
