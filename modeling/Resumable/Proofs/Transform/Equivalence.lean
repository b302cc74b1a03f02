import Resumable.Proofs.CodeUnit.Reencoding
import Resumable.Proofs.Emission.Equivalence
import Resumable.Proofs.Suspension.Captured
import Resumable.Proofs.Transform.Choice

/-!
# Functions that become state machines

If the transformation of a function succeeds, then both functions that it gives hold the code that
`Emission` describes, and the plan behind them fits the function. So the function and its state machine
do the same in every world, as long as nothing unusable is live at a suspending call and the awaited
futures have the outcomes that the calls declare.
-/

namespace Resumable

open List Moves

/-! ## Emitted functions -/

namespace Emission

variable {e : Emission} {u : CodeUnit} {l : Liveness} {ctx : TypingContext} {sites : List Nat}
  {after : Nat → UInt32 → Prop} {f c : Func} {a : Analyzer}

/-- **The suspendable function holds copies of all blocks that can run,** from its first instruction
on. -/
theorem Planned.exists_suspendable (hp : e.Planned u l ctx sites after)
    (h : e.functions a = .ok (f, c)) (hsize : f.code.length < 2 ^ 32) :
    f.name = e.function.name ∧ ∃ copy : e.Copy u, copy.body.func = f ∧ copy.machine = none ∧
      copy.pos 0 = 0 ∧ e.graph.blockNumber 0 ∈ copy.included ∧
      e.function.maxLocals ≤ f.maxLocals := by
  obtain ⟨frag, _, hfrag, _, hbuild, _⟩ := functions_eq_ok h
  obtain ⟨is, hfin, hcode, hlocals, hname, hparams, _⟩ := Fragment.build_eq_ok hbuild
  have hlocals' : f.maxLocals = localsNeeded is f.params.length e.function.maxLocals := by
    rw [hparams]
    exact hlocals
  obtain ⟨hbody, hcopies⟩ := hp.suspendable_body hfrag hfin hcode hsize rfl hparams hlocals'
  obtain ⟨hfirst, hencloses, _⟩ := hp.encloses
  refine ⟨hname, ⟨⟨f, is⟩, _, none, _, hcopies, hencloses, hbody, fun n hn => by cases hn⟩, rfl, rfl, rfl,
    hfirst, ?_⟩
  rw [hlocals']
  exact (localsNeeded_spec is _ _).1

/-- **The continuation holds copies of all blocks that can run after a resumption,** behind what it
begins with. -/
theorem Planned.exists_resumed (hp : e.Planned u l ctx sites after)
    (h : e.functions a = .ok (f, c)) (hsize : c.code.length < 2 ^ 32) :
    c.name = e.plan.continuation ∧ ∃ copy : e.Copy u, copy.body.func = c ∧
      copy.machine = some (e.home 0) ∧
      e.Resumes copy.body.code copy.body.func.handlers copy.pos ∧
      e.plan.locals + e.deepest + 5 ≤ c.maxLocals.toNat := by
  obtain ⟨_, frag, _, hfrag, _, hbuild⟩ := functions_eq_ok h
  obtain ⟨is, hfin, hcode, hlocals, hname, hparams, _⟩ := Fragment.build_eq_ok hbuild
  have hlocals' : c.maxLocals = localsNeeded is c.params.length (e.home 3 + 1) := by
    rw [hparams]
    exact hlocals
  obtain ⟨hbody, hcopies, hresumes⟩ := hp.continuation_body hfrag hfin hcode hsize rfl
    (congrArg length hparams) hlocals'
  refine ⟨hname, ⟨⟨c, is⟩, _, _, _, hcopies, hp.encloses.2.2, hbody, ?_⟩, rfl, rfl, hresumes, ?_⟩
  · intro n hn
    cases hn
    rw [hp.roomy.toNat_home (Nat.zero_le 3)]
    omega
  · exact hp.roomy.room_of_home hlocals'

theorem deepest_lt {n : Nat} (hn : 0 < n) (h : ∀ p ∈ e.plan.points, p.depth < n) : e.deepest < n := by
  have hfold : ∀ (row : List Point) (k : Nat), k < n → (∀ p ∈ row, p.depth < n) →
      row.foldl (fun k p => max k p.depth) k < n := by
    intro row
    induction row with
    | nil => exact fun k hk _ => hk
    | cons p row ih =>
      intro k hk hrow
      rw [forall_mem_cons] at hrow
      exact ih _ (Nat.max_lt.mpr ⟨hk, hrow.1⟩) hrow.2
  exact hfold e.plan.points 0 hn h

end Emission

/-! ## The transformation of a function -/

/-- No live position is left out at a point, if all values that get onto the stack have usable
types. -/
theorem Plan.complete_of_make {a : Analyzer} {f : Func} {is : List Instr} {sites : List Nat} {plan : Plan}
    {l : Liveness} {E : List BitSet} (h : make a f is sites = .ok plan)
    (hsites : ∀ s ∈ sites, s < is.length) (hu : a.unit.UsableTypes)
    (hl : l = ⟨a.unit, f.maxLocals.toNat, is, plan.analysis⟩)
    (hfits : l.Fits (a.context f) f.handlers (sites.map Int.ofNat) (Analyzer.entryFrame f))
    (hE : l.entries = .ok E) (hplan : plan.Fits l sites (l.LiveAfter E)) {q : Point}
    (hq : q ∈ plan.points) {v : UInt32} (hv : l.LiveAfter E q.instr v)
    (hlt : v.toNat < l.locals + q.depth) : v ∈ q.live := by
  obtain ⟨g, an, _, _, _, hg, han, _, _, _, rfl⟩ := make_eq_ok.mp h
  obtain ⟨k, hk⟩ := mem_iff_getElem?.mp hq
  obtain ⟨_, hsite, F, hF⟩ := hplan.points hk
  obtain ⟨t, ht⟩ := hF.typed hv hlt
  refine hF.mem_live.mpr ⟨hv, hlt, t, ht, capturable_iff.mpr ?_⟩
  subst hl
  by_cases hlocal : v.toNat < f.maxLocals.toNat
  · obtain ⟨B, hB, h1, h2⟩ := hfits.divides.exists_block (hsites _ hsite)
    obtain ⟨n, hcall, _⟩ := hF.call
    obtain ⟨t', ht', husable⟩ := hfits.canRead_of_liveAfter hE hB
      (hfits.divides.split (mem_map.mpr ⟨_, hsite, rfl⟩) hB h1 h2) h1 hF.frame hcall (by simp) hv
      hlocal
    rw [typeAt_of_local hlocal, ht'] at ht
    cases ht
    exact husable
  · exact Analyzer.usableStack_of_analyze hu (Graph.divides_of_build hg) han hF.frame t
      (mem_stack_of_typeAt hlocal ht)

/-- Every suspending call of a function that may use them takes one argument, and waits. -/
theorem CodeUnit.awaits_of_checkUsage {u : CodeUnit} {classes : Hierarchy} {f : Func} {is : List Instr}
    {i : Nat} {n : UInt32} {s : Symbol}
    (h : u.checkUsage classes f is (u.sites .standard is) = .ok ()) (hi : i ∈ u.sites .standard is)
    (hcode : is[i]? = some (.invoke n)) (hs : item? u.symbols n = some s) :
    s.service = .join ∧ s.params.length = 1 ∧ u.suspends .standard (.invoke n) := by
  have hsuspends : u.suspends .standard (.invoke n) := by
    have hany := (mem_filter.mp hi).2
    rw [hcode] at hany
    exact hany
  have hcallee : u.callee? (.invoke n) = some s := hs
  refine ⟨?_, ?_, hsuspends⟩
  · unfold suspends at hsuspends
    rw [hcallee] at hsuspends
    obtain ⟨howner, hmatch⟩ := Bool.and_eq_true_iff.mp hsuspends
    unfold Symbol.service
    rw [if_neg (by simpa using howner), if_pos hmatch]
  · unfold checkUsage at h
    obtain ⟨-, h⟩ := guarded_eq_ok.mp h
    obtain ⟨_, hcalls, _⟩ := bind_eq_ok.mp h
    have hcheck := forM_eq_ok.mp hcalls s
      (mem_filterMap.mpr ⟨i, hi, by rw [hcode]; exact hs⟩)
    unfold checkCall at hcheck
    split at hcheck
    next hparams => rw [hparams]; rfl
    next => cases hcheck

namespace Program

/-- A function that a program runs, with the body that its code has. -/
def Holds (p : Program) (f : Func) : Prop :=
  ∃ is, p.unit.bodyOf f = .ok is ∧ p.body? f.name = some ⟨f, is⟩

theorem ofUnit_eq_ok {u : CodeUnit} {q : ProgramOptions} {p : Program} (h : ofUnit u q = .ok p) :
    p.unit = u ∧ p.classes = u.hierarchy q.loader ∧
      Forall₂ (fun f b => bodyFor u f = .ok b) u.functions p.bodies := by
  unfold ofUnit at h
  obtain ⟨bodies, hbodies, h⟩ := bind_eq_ok.mp h
  cases h
  exact ⟨rfl, rfl, mapM_eq_ok.mp hbodies⟩

theorem bodyFor_eq_ok {u : CodeUnit} {f : Func} {b : Body} (h : bodyFor u f = .ok b) :
    b.func = f ∧ u.bodyOf f = .ok b.code := by
  unfold bodyFor at h
  split at h
  next is his =>
    cases h
    exact ⟨rfl, his⟩
  next => cases h

/-- A program that was made from a unit runs the functions of the unit, if they have different
names. -/
theorem holds_of_ofUnit {u : CodeUnit} {q : ProgramOptions} {p : Program} {f : Func}
    (h : ofUnit u q = .ok p) (hnames : (u.functions.map Func.name).Nodup) (hf : f ∈ u.functions) :
    p.Holds f := by
  obtain ⟨hunit, _, hall⟩ := ofUnit_eq_ok h
  have hfuncs : p.bodies.map Body.func = u.functions := by
    generalize u.functions = fs, p.bodies = bs at hall
    induction hall with
    | nil => rfl
    | cons hb _ ih => rw [map_cons, (bodyFor_eq_ok hb).1, ih]
  obtain ⟨b, hb, hbody⟩ := forall₂_exists_mem hall hf
  obtain ⟨rfl, hcode⟩ := bodyFor_eq_ok hbody
  rw [← hfuncs, map_map] at hnames
  have hfind : p.body? b.func.name = some b := by
    unfold body?
    obtain ⟨b', hb'⟩ := Option.isSome_iff_exists.mp
      (find?_isSome (p := fun d : Body => d.func.name = b.func.name).mpr
        ⟨b, mem_reverse.mpr hb, decide_eq_true rfl⟩)
    have hname : b'.func.name = b.func.name := by
      have := find?_some hb'
      exact of_decide_eq_true this
    rw [hb', inj_on_of_nodup_map hnames (mem_reverse.mp (mem_of_find?_eq_some hb')) hb
      hname]
  exact ⟨b.code, hunit ▸ hcode, hfind⟩

/-- The program of a unit whose bodies pass their checks. -/
def ready (u : CodeUnit) (q : ProgramOptions) : Program where
  unit := u
  bodies := u.functions.filterMap fun f => (u.bodyOf f).toOption.map (Body.mk f)
  classes := u.hierarchy q.loader
  host := q.host
  maxDepth := q.maxDepth
  debug := q.debug

theorem ofUnit_of_checkBodies {u : CodeUnit} (h : u.checkBodies = .ok ()) (q : ProgramOptions) :
    ofUnit u q = .ok (ready u q) := by
  have hbodies : u.functions.mapM (bodyFor u) =
      .ok (u.functions.filterMap fun f => (u.bodyOf f).toOption.map (Body.mk f)) := by
    have hall := CodeUnit.checkBodies_eq_ok.mp h
    generalize u.functions = fs at hall
    induction fs with
    | nil => rfl
    | cons f fs ih =>
      rw [forall_mem_cons] at hall
      obtain ⟨⟨is, his⟩, hrest⟩ := hall
      have hf : bodyFor u f = .ok ⟨f, is⟩ := by rw [bodyFor, his]
      rw [mapM_cons, hf, ih hrest, filterMap_cons, his]
      rfl
  unfold ofUnit
  rw [hbodies]
  rfl

end Program

namespace Transform

/-- What is asked of a function so that nothing is lost when it becomes a state machine. -/
structure Suited (u : CodeUnit) (classes : Hierarchy) (f : Func) : Prop where
  runtime : u.RuntimeDistinct
  types : u.UsableTypes
  /-- Locals, stack slots and five more positions can be numbered by 32 bits. -/
  room : ∀ {is plan}, u.bodyOf f = .ok is →
    Plan.make (analyzer u classes) f is (u.sites .standard is) = .ok plan →
    ∀ i F, plan.analysis.frameAt i = some F → f.maxLocals.toNat + F.stack.length + 5 < 2 ^ 32
  /-- The function does not suspend by itself. -/
  plain : ∀ {is n s}, u.bodyOf f = .ok is → .invoke n ∈ is → item? u.symbols n = some s →
    s.service ≠ .suspend

/-- A program with a function, and one with its state machine. -/
structure Replaced (u u' : CodeUnit) (f f' c : Func) (p p' : Program) : Prop where
  unit : p.unit = u
  unit' : u'.Extends p'.unit
  indexed : p'.unit.Indexed
  classes : p'.classes = p.classes
  original : p.Holds f
  suspendable : p'.Holds f'
  continuation : p'.Holds c
  small : f'.code.length < 2 ^ 32 ∧ c.code.length < 2 ^ 32

/-- Programs that were made from the unit of a function and from a unit with its state machine. -/
theorem replaced_of_ofUnit {u u' w : CodeUnit} {f f' c : Func} {q : ProgramOptions} {p p' : Program}
    (h : Program.ofUnit u q = .ok p) (h' : Program.ofUnit w q = .ok p')
    (hw : u'.Extends w) (hindexed : w.Indexed) (hclasses : w.classes = u.classes)
    (hnames : (u.functions.map Func.name).Nodup) (hnames' : (w.functions.map Func.name).Nodup)
    (hf : f ∈ u.functions) (hf' : f' ∈ w.functions) (hc : c ∈ w.functions)
    (hsmall : f'.code.length < 2 ^ 32 ∧ c.code.length < 2 ^ 32) : Replaced u u' f f' c p p' := by
  obtain ⟨hunit, hp, _⟩ := Program.ofUnit_eq_ok h
  obtain ⟨hunit', hp', _⟩ := Program.ofUnit_eq_ok h'
  have hsame : p'.classes = p.classes := by
    rw [hp, hp']
    unfold CodeUnit.hierarchy
    rw [hclasses]
  exact ⟨hunit, hunit' ▸ hw, hunit' ▸ hindexed, hsame, Program.holds_of_ofUnit h hnames hf,
    Program.holds_of_ofUnit h' hnames' hf', Program.holds_of_ofUnit h' hnames' hc, hsmall⟩

variable {o : TransformOptions} {u u' : CodeUnit} {classes : Hierarchy} {f f' c : Func}

/-- All that is known of the code of a state machine. -/
theorem exists_planned (hf : Suited u classes f) {w : CodeUnit} (hw : u'.Extends w)
    (hindexed : w.Indexed) {is : List Instr} {plan : Plan} (his : u.bodyOf f = .ok is)
    (hplan : Plan.make (analyzer u classes) f is (u.sites .standard is) = .ok plan)
    (hne : plan.points ≠ []) (hu : (Emission.prepare f is plan u).2 = u') :
    ∃ l E, l = ⟨u, f.maxLocals.toNat, is, plan.analysis⟩ ∧ l.entries = .ok E ∧ l.Solves E ∧
      (Emission.prepare f is plan u).1.function = f ∧ (Emission.prepare f is plan u).1.plan = plan ∧
      plan.continuation = f.name ++ continuationSuffix ∧
      (Emission.prepare f is plan u).1.Planned w l ((analyzer u classes).context f)
        (u.sites .standard is) (l.LiveAfter E) := by
  have hroom := hf.room his hplan
  obtain ⟨l, E, hl, hfits, hE, hsolves, hpf, hname⟩ := Plan.fits_of_make hplan
    (fun s hs => Plan.mem_sites hs) fun i F hF => by have := hroom i F hF; omega
  obtain ⟨hext, _, hprepared⟩ := Emission.prepare_grows f is plan u hf.runtime
  rw [hu] at hext hprepared
  obtain ⟨hfunction, hbody, heplan, hprepared⟩ := hprepared w hw hindexed
  generalize (Emission.prepare f is plan u).1 = e at hfunction hbody heplan hprepared ⊢
  refine ⟨l, E, hl, hE, hsolves, hfunction, heplan, hname, ?_⟩
  subst hl
  have hpoint (q : Point) (hq : q ∈ plan.points) : f.maxLocals.toNat + q.depth + 5 < 2 ^ 32 := by
    obtain ⟨k, hk⟩ := mem_iff_getElem?.mp hq
    obtain ⟨_, _, F, hF⟩ := hpf.points hk
    have hdepth : q.depth ≤ F.stack.length := by simp [Point.depth, hF.stack]
    have := hroom _ F hF.frame
    omega
  have hroomy : e.Roomy := by
    obtain ⟨q, hq⟩ := exists_mem_of_ne_nil _ hne
    have hsome := hpoint q hq
    have hdeep := Emission.deepest_lt (e := e) (n := 2 ^ 32 - 5 - f.maxLocals.toNat) (by omega) (by
        rw [heplan]
        intro q hq
        have := hpoint q hq
        omega)
    have hlocals : plan.locals = f.maxLocals.toNat := hpf.locals
    unfold Emission.Roomy
    rw [heplan, hlocals]
    omega
  exact
    { prepared := hprepared
      extended := hext.trans hw
      indexed := hindexed
      code := hbody
      checked := hfunction ▸ his
      locals := by rw [hfunction]
      fits := by rw [hfunction]; exact hfits
      plan := heplan ▸ hpf
      nonempty := heplan ▸ hne
      roomy := hroomy }

/-- **A state machine does what its function did.** In every world, with all arguments and from every
state, it makes the same calls with the same arguments in the same order and ends in the same way,
whether awaited futures are settled or pending. What is asked of the function is that no unusable type
gets onto its stack, and of the world that a promised future has the class that the function returns
and that the outcomes of awaited futures have the types that the suspending calls declare. -/
theorem function_same
    (h : (Journaled.outcome (function o u classes f)).1 = .ok (some (u', f', c)))
    (ho : o.matcher = .standard) (hf : Suited u classes f) {p p' : Program}
    (hr : Replaced u u' f f' c p p') {σ : Type} (w : World σ)
    (hpromise : ∀ state,
      p.classes.isSubclass (w.classOf state (.future w.promise)) f.result.className) :
    ∃ b b', p.body? f.name = some b ∧ p'.body? f.name = some b' ∧ ∀ args state,
      Always (w.move p) (w.Conforms p) (.start b args state) →
        Same (w.move p) (w.move p') (.start b args state) (.start b' args state) := by
  obtain ⟨_, hnone⟩ | ⟨is, plan, _, _, hchosen, heq, hfunctions⟩ :=
    function_returns (Journaled.returns_of_outcome h)
  · cases hnone
  simp only [Option.some.injEq, Prod.mk.injEq] at heq
  obtain ⟨hu, rfl, rfl⟩ := heq
  have his := hchosen.body
  have husage := hchosen.usage
  have hplan := hchosen.planned
  rw [ho] at husage hplan
  obtain ⟨l, E, hl, hE, hsolves, hfunction, heplan, hname, hplanned⟩ :=
    exists_planned hf hr.unit' hr.indexed his hplan hchosen.points hu.symm
  generalize (Emission.prepare f is plan u).1 = e at *
  obtain ⟨hname', copy, hcopy, hmachine, hpos, hin, hlocals⟩ :=
    hplanned.exists_suspendable hfunctions hr.small.1
  obtain ⟨hcname, resumed, hresumed, hhome, hresumes, hroom⟩ :=
    hplanned.exists_resumed hfunctions hr.small.2
  subst hfunction heplan hl
  have hbody {d : Func} {copy : e.Copy p'.unit} (hd : p'.Holds d) (hcopy : copy.body.func = d) :
      p'.body? d.name = some copy.body := by
    obtain ⟨js, hjs, hbody⟩ := hd
    have hcode := copy.checked
    rw [hcopy, hjs] at hcode
    cases hcode
    rw [hbody, ← hcopy]
  obtain ⟨is', his', horiginal⟩ := hr.original
  rw [hr.unit, his] at his'
  cases his'
  let M : e.Machinery p'.unit ⟨u, e.function.maxLocals.toNat, is, e.plan.analysis⟩
      ((analyzer u classes).context e.function) (u.sites .standard is) _ _ p p' w :=
    { planned := hplanned
      table := hplanned.fits.table hsolves
      unit := hr.unit
      unit' := rfl
      classes := hr.classes
      resumed
      machine := hhome
      resumes := hresumes
      found := hcname ▸ hbody hr.continuation hresumed
      room := hresumed ▸ hroom
      complete := by
        intro s hs v hv hlt
        rw [hplanned.plan.locals] at hlt
        exact Plan.complete_of_make hplan (fun s hs => Plan.mem_sites hs) hf.types rfl hplanned.fits hE
          hplanned.plan (hplanned.point hs).1 hv hlt
      awaits := fun hi hcode hs => CodeUnit.awaits_of_checkUsage husage hi hcode hs
      plain := fun hcode hs => hf.plain his (List.mem_of_getElem? hcode) hs
      promise := hpromise }
  refine ⟨_, copy.body, horiginal, hname' ▸ hbody hr.suspendable hcopy, fun args state hc => ?_⟩
  exact M.same hpos hin hmachine (hcopy ▸ hlocals) hc

/-! ### Objects and unusable values that are kept -/

/-- The functions that one becomes, and the unit with the tables that they need; the function itself if
it is left as it is. -/
def machineOf (u : CodeUnit) (f : Func) : CodeUnit × Func × Func :=
  (function {} u (u.hierarchy .none) f).outcome.1.toOption.join.getD (u, f, f)

/-- The two functions that one becomes, in a unit of their own. -/
def machineUnit (u : CodeUnit) (f : Func) : CodeUnit :=
  { (machineOf u f).1 with functions := [(machineOf u f).2.1, (machineOf u f).2.2] }

theorem outcome_function {u : CodeUnit} {f : Func}
    (h : (function {} u (u.hierarchy .none) f).outcome.1.toOption.join.isSome) :
    (function {} u (u.hierarchy .none) f).outcome.1 =
      .ok (some ((machineOf u f).1, (machineOf u f).2.1, (machineOf u f).2.2)) := by
  unfold machineOf
  generalize (function {} u (u.hierarchy .none) f).outcome.1 = x at h
  match x, h with
  | .ok (some m), _ => rfl

theorem extends_machineUnit (u : CodeUnit) (f : Func) : (machineOf u f).1.Extends (machineUnit u f) :=
  ⟨prefix_refl _, prefix_refl _, prefix_refl _⟩

theorem mem_machineUnit (u : CodeUnit) (f : Func) :
    (machineOf u f).2.1 ∈ (machineUnit u f).functions ∧
      (machineOf u f).2.2 ∈ (machineUnit u f).functions :=
  ⟨mem_cons_self, mem_cons_of_mem _ mem_cons_self⟩

/-- A world in which `make` gives 7 and futures are pending until somebody waits for them. -/
def patientWorld : World Bool where
  classOf _ _ := "Future"
  format _ _ := .ok ""
  answer s f _ := (.ok (if f.name = "make" then .int 7 else .null), s)
  outcome? s _ := if s then some (.value (.int 5)) else none
  wait _ _ := true
  settled _ := rfl
  machine := 0
  promise := 1

/-- Like `Plan.relayUnit`, but what is kept on the stack is an object. -/
def carryUnit : CodeUnit where
  strings := ["X", "make", "async/Await", "await", "Future", "Object", "use", "f"]
  symbols := [
    { owner := "X", name := "make", params := [], result := .ref "Object" },
    { owner := "async/Await", name := "await", params := [.ref "Future"], result := .ref "Object" },
    { owner := "X", name := "use", params := [.ref "Object"], result := .void }]
  functions := [Plan.relayFunc]

theorem suited_carry : Suited carryUnit (carryUnit.hierarchy .none) Plan.relayFunc := by
  have hbody : carryUnit.bodyOf Plan.relayFunc = .ok Plan.relayBody := by decide +kernel
  have hframes : ∀ an ∈ ((Plan.make (analyzer carryUnit (carryUnit.hierarchy .none)) Plan.relayFunc
      Plan.relayBody (carryUnit.sites .standard Plan.relayBody)).toOption.map Plan.analysis),
      ∀ o ∈ an.frames, ∀ F ∈ o, 1 + F.stack.length + 5 < 2 ^ 32 := by
    decide +kernel
  refine ⟨?_, ⟨by decide, fun l hl => by cases hl⟩, ?_, ?_⟩
  · unfold CodeUnit.RuntimeDistinct
    decide +kernel
  · intro is plan his hplan i F hF
    obtain rfl := Except.ok.inj (hbody.symm.trans his)
    rw [hplan] at hframes
    exact hframes plan.analysis rfl (some F) (mem_of_getElem? (Option.join_eq_some_iff.mp hF)) F rfl
  · intro is n s his hn hs
    obtain rfl := Except.ok.inj (hbody.symm.trans his)
    have hplain : ∀ s ∈ carryUnit.symbols, s.service ≠ .suspend := by decide +kernel
    exact hplain s (mem_of_getElem? hs)

/-- An object that is kept on the stack over a suspension is the same one afterwards. -/
theorem function_same_carry :
    ∃ p p' m b b', Program.ofUnit carryUnit {} = .ok p ∧
      Program.ofUnit (machineUnit carryUnit Plan.relayFunc) {} = .ok p' ∧
      (function {} carryUnit (carryUnit.hierarchy .none) Plan.relayFunc).outcome.1 = .ok (some m) ∧
      p.body? "f" = some b ∧ p'.body? "f" = some b' ∧
      Same (patientWorld.move p) (patientWorld.move p') (.start b [.future 0] false)
        (.start b' [.future 0] false) := by
  have hp := Program.ofUnit_of_checkBodies (u := carryUnit) (by decide +kernel) {}
  have hp' := Program.ofUnit_of_checkBodies (u := machineUnit carryUnit Plan.relayFunc)
    (by decide +kernel) {}
  have h := outcome_function (u := carryUnit) (f := Plan.relayFunc) (by decide +kernel)
  have hreplaced := replaced_of_ofUnit (f := Plan.relayFunc) hp hp' (extends_machineUnit _ _)
    (by constructor <;> decide +kernel) (by decide +kernel) (by decide +kernel) (by decide +kernel)
    List.mem_cons_self (mem_machineUnit _ _).1 (mem_machineUnit _ _).2 (by decide +kernel)
  obtain ⟨b, b', hb, hb', hsame⟩ := function_same h rfl suited_carry hreplaced patientWorld
    fun _ => (by decide +kernel : (carryUnit.hierarchy .none).isSubclass "Future" "Future" = true)
  refine ⟨_, _, _, b, b', hp, hp', h, hb, hb', hsame _ _ fun _ _ x _ => ?_⟩
  exact patientWorld.conforms_of_object (by decide +kernel) x

/-- The names of calls, and which of their arguments are null. -/
def Calls (events : List (Symbol × List Value)) (row : List (Text × List Bool)) : Prop :=
  events.map (fun (s, args) => (s.name, args.map Value.isNull)) = row

/-- A value of an unusable type that is kept on the stack over a suspension is null afterwards. -/
theorem function_not_same_relay :
    ∃ p p' m b b', Program.ofUnit Plan.relayUnit {} = .ok p ∧
      Program.ofUnit (machineUnit Plan.relayUnit Plan.relayFunc) {} = .ok p' ∧
      (function {} Plan.relayUnit (Plan.relayUnit.hierarchy .none) Plan.relayFunc).outcome.1 =
        .ok (some m) ∧
      p.body? "f" = some b ∧ p'.body? "f" = some b' ∧
      (∃ es r, Ends (patientWorld.move p) (.start b [.future 0] false) es r ∧
        Calls es [("make", []), ("use", [false])]) ∧
      (∃ es r, Ends (patientWorld.move p') (.start b' [.future 0] false) es r ∧
        Calls es [("make", []), ("use", [true])]) := by
  have hp := Program.ofUnit_of_checkBodies (u := Plan.relayUnit) (by decide +kernel) {}
  have hp' := Program.ofUnit_of_checkBodies (u := machineUnit Plan.relayUnit Plan.relayFunc)
    (by decide +kernel) {}
  have hends (p : Program) (n : Nat) (row : List (Text × List Bool))
      (h : ((p.body? "f").bind fun b =>
        (Moves.run (patientWorld.move p) n (.start b [.future 0] false)).map fun x =>
          x.1.map fun (s, args) => (s.name, args.map Value.isNull)) = some row) :
      ∃ b, p.body? "f" = some b ∧
        ∃ es r, Ends (patientWorld.move p) (.start b [.future 0] false) es r ∧ Calls es row := by
    obtain ⟨b, hb, hrun⟩ := Option.bind_eq_some_iff.mp h
    obtain ⟨⟨es, r⟩, hrun, hrow⟩ := Option.map_eq_some_iff.mp hrun
    exact ⟨b, hb, es, r, ends_of_run hrun, hrow⟩
  obtain ⟨b, hb, horiginal⟩ := hends (.ready Plan.relayUnit {}) 50
    [("make", []), ("use", [false])] (by decide +kernel)
  obtain ⟨b', hb', hmachine⟩ := hends (.ready (machineUnit Plan.relayUnit Plan.relayFunc) {})
    150 [("make", []), ("use", [true])] (by decide +kernel)
  exact ⟨_, _, _, b, b', hp, hp', outcome_function (by decide +kernel), hb, hb', horiginal, hmachine⟩

end Transform

end Resumable
