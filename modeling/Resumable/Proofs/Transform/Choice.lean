import Resumable.Proofs.Emission.Additions
import Resumable.Proofs.Journal
import Resumable.Proofs.Suspension.Extension

/-!
# Which functions become state machines

A function becomes a state machine if it is none yet, is not excluded, makes suspending calls, may make
them and can reach one of them. Every other function is left as it is. What decides this are the body of
the function, the classes and the names of the functions of the unit. So a table that gains entries
changes no decision, and neither does a function that becomes a state machine under its own name.
-/

namespace Resumable.Transform

variable {o : TransformOptions} {u v : CodeUnit} {classes : Hierarchy} {f : Func} {is : List Instr}
  {plan : Plan}

/-- A function that becomes a state machine, with its body and its plan. -/
structure Chosen (o : TransformOptions) (u : CodeUnit) (classes : Hierarchy) (f : Func)
    (is : List Instr) (plan : Plan) : Prop where
  pending : (f.isTransformed || f.isContinuation) = false
  included : o.exclude f.name = false
  body : u.bodyOf f = .ok is
  suspends : u.sites o.matcher is ≠ []
  usage : u.checkUsage classes f is (u.sites o.matcher is) = .ok ()
  planned : Plan.make (analyzer u classes) f is (u.sites o.matcher is) = .ok plan
  points : plan.points ≠ []

/-- A function that is left as it is: it is flagged, excluded, makes no suspending calls, may not make
them, or reaches none of them. -/
inductive Left (o : TransformOptions) (u : CodeUnit) (classes : Hierarchy) (f : Func) : Prop
  | done (h : (f.isTransformed || f.isContinuation) = true)
  | excluded (h : o.exclude f.name = true)
  | idle {is : List Instr} (body : u.bodyOf f = .ok is) (h : u.sites o.matcher is = [])
  | misused {is : List Instr} (body : u.bodyOf f = .ok is)
      (h : u.checkUsage classes f is (u.sites o.matcher is) ≠ .ok ())
  | unreached {is : List Instr} {plan : Plan} (body : u.bodyOf f = .ok is)
      (usage : u.checkUsage classes f is (u.sites o.matcher is) = .ok ())
      (planned : Plan.make (analyzer u classes) f is (u.sites o.matcher is) = .ok plan)
      (h : plan.points = [])

/-! ## The work on one function -/

/-- What the state machine of a function comes to. -/
theorem machine_returns {sites : List Nat} {r : Option (CodeUnit × Func × Func)}
    (h : (machine u classes f is sites).Returns r) :
    ∃ plan, Plan.make (analyzer u classes) f is sites = .ok plan ∧
      (plan.points = [] ∧ r = none ∨
        plan.points ≠ [] ∧ ∃ f' c, r = some ((Emission.prepare f is plan u).2, f', c) ∧
          (Emission.prepare f is plan u).1.functions
            (analyzer (Emission.prepare f is plan u).2 classes) = .ok (f', c)) := by
  unfold machine at h
  obtain ⟨plan, hplan, h⟩ := h.bind
  refine ⟨plan, hplan.orElse, ?_⟩
  generalize Emission.prepare f is plan u = prepared at h ⊢
  split at h
  next hpoints =>
    obtain ⟨_, _, h⟩ := h.bind
    exact .inl ⟨List.isEmpty_iff.mp hpoints, (Journaled.Returns.pure h).symm⟩
  next hpoints =>
    obtain ⟨fs, hfs, h⟩ := h.bind
    obtain ⟨_, _, h⟩ := h.bind
    exact .inr ⟨fun hnil => hpoints (List.isEmpty_iff.mpr hnil), fs.1, fs.2,
      (Journaled.Returns.pure h).symm, hfs.orElse⟩

/-- **The work on a function** leaves it as it is, or makes a state machine of it. -/
theorem function_returns {r : Option (CodeUnit × Func × Func)}
    (h : (function o u classes f).Returns r) :
    Left o u classes f ∧ r = none ∨
      ∃ is plan f' c, Chosen o u classes f is plan ∧
        r = some ((Emission.prepare f is plan u).2, f', c) ∧
        (Emission.prepare f is plan u).1.functions
          (analyzer (Emission.prepare f is plan u).2 classes) = .ok (f', c) := by
  unfold function at h
  dsimp only at h
  split at h
  next hdone => exact .inl ⟨.done hdone, (Journaled.Returns.pure h).symm⟩
  next hpending =>
  split at h
  next hexcluded =>
    obtain ⟨_, _, h⟩ := h.bind
    exact .inl ⟨.excluded hexcluded, (Journaled.Returns.pure h).symm⟩
  next hincluded =>
  split at h
  next =>
    obtain ⟨_, _, h⟩ := h.bind
    exact absurd h Journaled.not_returns_throw
  next is his =>
  split at h
  next hsites => exact .inl ⟨.idle his (List.isEmpty_iff.mp hsites), (Journaled.Returns.pure h).symm⟩
  next hsites =>
  split at h
  next fault hfault =>
    obtain ⟨_, _, h⟩ := h.bind
    refine .inl ⟨.misused his ?_, (Journaled.Returns.pure h).symm⟩
    rw [hfault]
    rintro ⟨⟩
  next husage =>
  obtain ⟨plan, hplan, ⟨hpoints, hr⟩ | ⟨hpoints, f', c, hr, hfunctions⟩⟩ := machine_returns h
  · exact .inl ⟨.unreached his husage hplan hpoints, hr⟩
  · exact .inr ⟨is, plan, f', c, ⟨Bool.eq_false_iff.mpr hpending, Bool.eq_false_iff.mpr hincluded, his,
      fun hnil => hsites (List.isEmpty_iff.mpr hnil), husage, hplan, hpoints⟩, hr, hfunctions⟩

/-- Nothing is done to a function that is left as it is, and nothing fails. -/
theorem Left.succeeds (h : Left o u classes f) : (function o u classes f).Succeeds none := by
  unfold function
  dsimp only
  split
  next => exact .pure none
  next hpending =>
  split
  next => exact (Journaled.succeeds_log _).bind (.pure none)
  next hincluded =>
  -- from here on the body was read, and it tells which case it is
  cases h with
  | done h => exact absurd h hpending
  | excluded h => exact absurd h hincluded
  | idle body h =>
    rw [body]
    dsimp only
    rw [if_pos (List.isEmpty_iff.mpr h)]
    exact .pure none
  | misused body h =>
    rw [body]
    dsimp only
    split
    next => exact .pure none
    next =>
      split
      next => exact (Journaled.succeeds_report _).bind (.pure none)
      next husage => exact absurd husage h
  | unreached body usage planned h =>
    rw [body]
    dsimp only
    split
    next => exact .pure none
    next =>
      rw [usage]
      dsimp only
      unfold machine
      rw [planned]
      refine Journaled.Succeeds.bind (.pure _) ?_
      rw [if_pos (List.isEmpty_iff.mpr h)]
      exact (Journaled.succeeds_log _).bind (.pure none)

/-! ## Units that grow -/

section

variable (hu : u.Extends v)

include hu

/-- A function that is left as it is stays so when the tables grow, whatever functions are added. -/
theorem Left.mono (h : Left o u classes f)
    (hnames : u.functions.map Func.name ⊆ v.functions.map Func.name) : Left o v classes f := by
  cases h with
  | done h => exact .done h
  | excluded h => exact .excluded h
  | idle body h =>
    refine .idle (hu.bodyOf body) ?_
    rw [hu.sites_eq (CodeUnit.refers_of_bodyOf body), h]
  | misused body h =>
    refine .misused (hu.bodyOf body) fun husage => h ?_
    have hrefers := CodeUnit.refers_of_bodyOf body
    rw [hu.sites_eq hrefers, hu.checkUsage_eq_ok hrefers] at husage
    obtain ⟨hresult, hcalls, hname⟩ := husage
    exact CodeUnit.checkUsage_eq_ok.mpr ⟨hresult, hcalls, fun hmem => hname (hnames hmem)⟩
  | @unreached is plan body usage hplan h =>
    have hrefers := CodeUnit.refers_of_bodyOf body
    -- the name of the continuation may be taken by now
    by_cases husage : v.checkUsage classes f is (v.sites o.matcher is) = .ok ()
    · refine .unreached (hu.bodyOf body) husage ?_ h
      rw [hu.sites_eq hrefers, ← hplan]
      exact Plan.make_eq (a := analyzer u classes) hrefers hu
    · exact .misused (hu.bodyOf body) husage

variable (hnames : v.functions.map Func.name = u.functions.map Func.name) (body : u.bodyOf f = .ok is)

include hnames body

theorem usage_iff : v.checkUsage classes f is (v.sites o.matcher is) = .ok () ↔
    u.checkUsage classes f is (u.sites o.matcher is) = .ok () := by
  have hrefers := CodeUnit.refers_of_bodyOf body
  rw [hu.sites_eq hrefers, hu.checkUsage_eq_ok hrefers, CodeUnit.checkUsage_eq_ok, hnames]

omit hnames in
theorem plan_eq : Plan.make (analyzer v classes) f is (v.sites o.matcher is) =
    Plan.make (analyzer u classes) f is (u.sites o.matcher is) := by
  have hrefers := CodeUnit.refers_of_bodyOf body
  rw [hu.sites_eq hrefers]
  exact Plan.make_eq (a := analyzer u classes) hrefers hu

/-- What is left as it is after some functions were done was so from the start. -/
theorem Left.before (h : Left o v classes f) : Left o u classes f := by
  have hbody {is' : List Instr} (h : v.bodyOf f = .ok is') : is' = is :=
    Except.ok.inj (h.symm.trans (hu.bodyOf body))
  cases h with
  | done h => exact .done h
  | excluded h => exact .excluded h
  | idle body' h =>
    cases hbody body'
    refine .idle body ?_
    rw [← hu.sites_eq (CodeUnit.refers_of_bodyOf body), h]
  | misused body' h =>
    cases hbody body'
    exact .misused body fun husage => h ((usage_iff hu hnames body).mpr husage)
  | unreached body' usage hplan h =>
    cases hbody body'
    exact .unreached body ((usage_iff hu hnames body).mp usage)
      ((plan_eq hu body).symm.trans hplan) h

end

/-- The same for a function that becomes a state machine. -/
theorem Chosen.before (h : Chosen o v classes f is plan) (hu : u.Extends v)
    (hnames : v.functions.map Func.name = u.functions.map Func.name) {is' : List Instr}
    (body : u.bodyOf f = .ok is') : Chosen o u classes f is plan := by
  obtain rfl := Except.ok.inj (h.body.symm.trans (hu.bodyOf body))
  exact { h with
    body
    suspends := hu.sites_eq (CodeUnit.refers_of_bodyOf body) o.matcher ▸ h.suspends
    usage := (usage_iff hu hnames body).mp h.usage
    planned := (plan_eq hu body).symm.trans h.planned }

end Resumable.Transform
