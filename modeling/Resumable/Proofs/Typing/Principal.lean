import Resumable.Proofs.Typing.Body

/-!
# Principal typings

The entry frames that an analysis finds are the least consistent assignment, and an analysis only
fails if there is none. So its verdict and its frames are a property of the body: they depend neither
on the order in which blocks are taken from the queue nor on additional cuts.
-/

namespace Resumable

namespace Analyzer

/-- The analysis of a body with a graph is principal. -/
structure Principal (a : Analyzer) (f : Func) (is : List Instr) (g : Graph) : Prop where
  /-- There is a result if and only if there is a consistent assignment. -/
  accepts : (∃ an, a.analyze f is g = .ok an) ↔
    ∃ σ, (a.subject f is g).Consistent a.classes.Inherits (entryFrame f) σ
  /-- The entry frames found are consistent, … -/
  consistent : ∀ an, a.analyze f is g = .ok an →
    (a.subject f is g).Consistent a.classes.Inherits (entryFrame f) an.entryOf
  /-- … and below those of every consistent assignment. -/
  least : ∀ an, a.analyze f is g = .ok an → ∀ σ,
    (a.subject f is g).Consistent a.classes.Inherits (entryFrame f) σ →
      ∀ b F, an.entryOf b = some F → Admits a.classes.Inherits σ b F
  /-- In whatever order blocks are spread, the rounds come to an end. -/
  finite : ∀ n p, (a.subject f is g).Rounds n ((a.subject f is g).initial (entryFrame f)) p →
    n ≤ (a.subject f is g).enoughRounds f.maxLocals.toNat
  /-- An empty queue means that there is a result, with the frames reached. -/
  settled : ∀ n p, (a.subject f is g).Rounds n ((a.subject f is g).initial (entryFrame f)) p →
    p.queue = [] → ∃ an, a.analyze f is g = .ok an ∧ an.entries = p.entries
  /-- No round fails if there is a result. -/
  unstuck : ∀ an, a.analyze f is g = .ok an → ∀ n p,
    (a.subject f is g).Rounds n ((a.subject f is g).initial (entryFrame f)) p →
      ∀ b ∈ p.queue, ∃ p', (a.subject f is g).spread (p.take b) b = .ok p'
  /-- If there is no result, it is because a round failed. -/
  stuck : (∀ an, a.analyze f is g ≠ .ok an) → ∃ n p b e,
    (a.subject f is g).Rounds n ((a.subject f is g).initial (entryFrame f)) p ∧ b ∈ p.queue ∧
      (a.subject f is g).spread (p.take b) b = .error e
  /-- Other cuts lead to the same verdict and to the same frames before the instructions. -/
  recut : ∀ splits g', Graph.build f.name is f.handlers splits = .ok g' →
    ((∃ an, a.analyze f is g = .ok an) ↔ ∃ an, a.analyze f is g' = .ok an) ∧
      ∀ an an', a.analyze f is g = .ok an → a.analyze f is g' = .ok an' → an.frames = an'.frames

variable {a : Analyzer} {f : Func} {is : List Instr} {g g' : Graph} {an an' : Analysis}
  {handlers : List Handler} {splits splits' : List Int}

/-- The verdict does not depend on the cuts. -/
theorem accepts_recut (hg : a.classes.Grounded) (hs : ∀ op, a.supports op = true)
    (hd : g.Divides is handlers splits) (hd' : g'.Divides is handlers splits')
    (h : a.analyze f is g = .ok an) : ∃ an', a.analyze f is g' = .ok an' :=
  analyze_of_typing hg hs hd' (typing_of_analyze hg.bounds hd h)

/-- The frames do not depend on the cuts: they are the least typing. -/
theorem frames_recut (hg : a.classes.Grounded) (hd : g.Divides is handlers splits)
    (hd' : g'.Divides is handlers splits') (h : a.analyze f is g = .ok an)
    (h' : a.analyze f is g' = .ok an') : an.frames = an'.frames := by
  have hle : ∀ ⦃i F⦄, an.frameAt i = some F → Admits a.classes.Inherits an'.frameAt i F :=
    fun i F hF => frameAt_least hg hd h (typing_of_analyze hg.bounds hd' h') hF
  have hge : ∀ ⦃i F⦄, an'.frameAt i = some F → Admits a.classes.Inherits an.frameAt i F :=
    fun i F hF => frameAt_least hg hd' h' (typing_of_analyze hg.bounds hd h) hF
  have heq : an.frameAt = an'.frameAt := assignment_antisymm hg hle hge
  have hlen : an.frames.length = an'.frames.length := by
    rw [length_frames h, length_frames h']
  refine List.ext_getElem hlen fun i hi hi' => ?_
  have := congrFun heq i
  simpa [Analysis.frameAt, hi, hi'] using this

/-- **Frame analysis computes the principal typing.** Whenever the body has a graph, all opcodes are
supported and the class hierarchy is grounded. -/
theorem analyze_principal (a : Analyzer) (f : Func) (is : List Instr) (g : Graph)
    (splits : List Int) (hg : a.classes.Grounded) (hs : ∀ op, a.supports op = true)
    (hb : Graph.build f.name is f.handlers splits = .ok g) : a.Principal f is g := by
  have hd := Graph.divides_of_build hb
  have hne := blocks_ne_nil hd
  have hstack : (entryFrame f).stack = [] := rfl
  have hlen : (entryFrame f).locals.length = f.maxLocals.toNat := Subject.length_entryFrame _ _
  have htame := Subject.tame_initial (s := a.subject f is g) hne hstack
  have hpot := Subject.potential_initial_le (s := a.subject f is g) hne hstack
  have hsum := hd.sum_sizeOf_le
  have hunder : (a.subject f is g).Underway a.classes.Inherits (entryFrame f)
      ((a.subject f is g).initial (entryFrame f)) := Subject.underway_initial hne
  refine
    { accepts := ⟨fun ⟨an, h⟩ => ⟨an.entryOf, analyze_sound hg.bounds hd h⟩,
        fun ⟨σ, hσ⟩ => analyze_complete hg hs hd hσ⟩
      consistent := fun an h => analyze_sound hg.bounds hd h
      least := fun an h σ hσ b F hF => analyze_least hg hd h hσ hF
      finite := ?_
      settled := ?_
      unstuck := ?_
      stuck := ?_
      recut := ?_ }
  · intro n p hr
    have hle := hr.length_le hsum hg htame
    rw [hlen] at hle hpot
    omega
  · intro n p hr hq
    obtain ⟨an, h⟩ := analyze_complete hg hs hd ((hunder.rounds hg.bounds hr).consistent hq)
    exact ⟨an, h, entries_of_rounds hg hd h hr hq⟩
  · intro an h n p hr b hb
    have hc := analyze_sound hg.bounds hd h
    have hbelow := hr.stays_below hg hc hunder (Subject.below_initial hne hc)
    have hu := hunder.rounds hg.bounds hr
    obtain ⟨F, hF⟩ := hu.queued hb
    obtain ⟨p', hp', _⟩ := Subject.spread_succeeds (p := p.take b) hg hc hbelow hu.length hF
    exact ⟨p', hp'⟩
  · intro hno
    rcases Subject.settle_of_potential_le hsum hg htame hpot with ⟨q, hq⟩ | hfail
    · obtain ⟨k, hr, hempty⟩ := Subject.rounds_of_settle hq
      obtain ⟨an, h⟩ := analyze_complete hg hs hd
        ((hunder.rounds hg.bounds hr).consistent hempty)
      exact absurd h (hno an)
    · exact hfail
  · intro splits' g' hb'
    have hd' := Graph.divides_of_build hb'
    exact ⟨⟨fun ⟨an, h⟩ => accepts_recut hg hs hd hd' h,
      fun ⟨an, h⟩ => accepts_recut hg hs hd' hd h⟩, fun an an' h h' => frames_recut hg hd hd' h h'⟩

/-- A loop that starts with null and goes on with a string. Its handler brings in an error, so that
the only local rises to the root class. -/
def retryFunc : Func :=
  { name := "retry", maxLocals := 1
    handlers := [{ start := 2, stop := 6, target := 7, cls := "", region := 0, kind := 0 }] }

/-- The body of `retryFunc`. -/
def retryBody : List Instr :=
  [.null, .store 0, .load 0, .branch .nonnull 6, .sconst 0, .goto 1, .ret, .store 0, .goto 2]

/-- The analyzer of a unit that has one string and no classes of its own. -/
def builtinAnalyzer : Analyzer := { unit := { strings := ["again"] }, classes := ⟨builtinSuper⟩ }

theorem analyze_principal_retry :
    Graph.build retryFunc.name retryBody retryFunc.handlers [3] =
        .ok (Graph.assemble retryBody retryFunc.handlers [3]) ∧
      builtinAnalyzer.classes.Grounded ∧
      builtinAnalyzer.Principal retryFunc retryBody
        (Graph.assemble retryBody retryFunc.handlers [3]) :=
  ⟨rfl, Hierarchy.grounded_builtin,
    analyze_principal builtinAnalyzer retryFunc retryBody _ [3] Hierarchy.grounded_builtin
      (fun _ => rfl) rfl⟩

end Analyzer

end Resumable
