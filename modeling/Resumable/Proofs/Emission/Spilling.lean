import Resumable.Proofs.Emission.Additions
import Resumable.Proofs.Emission.Capture
import Resumable.Proofs.Suspension.Segments

/-!
# Capturing and putting back are inverse

The code that captures makes one call, which hands over a record of the values at the captured
positions, and the continuation puts the fields of such a record back before it makes its first call.
A resumption index that there is not is answered with an error. This is what both functions of a state
machine do by themselves: it is said of activations, whatever world they are in, and does not depend on
what is live.
-/

namespace Resumable

open Activation Fragment List

/-! ## Calls of an activation -/

/-- The last step of an activation that makes no call any more. -/
inductive Step.Ends (w : Surroundings) : Step → Step → Prop
  | done (v : Value) : Ends w (.done v) (.done v)
  | raised (x : Exception) : Ends w (.raised x) (.raised x)
  | stopped (f : Failure) : Ends w (.stopped f) (.stopped f)
  | next {a : Activation} {last : Step} (h : Ends w (a.step w) last) : Ends w (.next a) last

namespace Activation

variable {w : Surroundings} {a b : Activation} {x : Value}

/-- The first call that an activation makes. It waits for the answer as `b`. -/
def CallsFirst (w : Surroundings) (a : Activation) (f : Symbol) (args : List Value) (b : Activation) :
    Prop :=
  ∃ c n, a.Glides w c ∧ c.step w = .call n args b ∧ item? w.unit.symbols n = some f

/-- Makes one call. Whatever the answer is and whatever the call does to the world, the activation
ends without another one, and a value that is the answer is related to the end by `R`. -/
def CallsOnce (w : Surroundings) (a : Activation) (f : Symbol) (args : List Value)
    (R : Value → Step → Prop) : Prop :=
  ∃ b, a.CallsFirst w f args b ∧ ∀ w' r, w'.unit = w.unit →
    ∃ last, (b.receive w' r).Ends w' last ∧ ∀ v, r = .ok v → R v.received last

/-! ### Code without handlers -/

theorem raise_bare (h : handlersAt a.body.func.handlers a.pc = []) (x : Exception) :
    a.raise w x = .raised x := by
  rw [raise_eq, h]
  rfl

theorem ends_turn_raise (h : handlersAt a.body.func.handlers a.pc = []) (y : Exception)
    (rest outs : List Value) :
    ((Operation.turn (.raise y) outs).step w a rest).Ends w (.raised y) := by
  show (raise w { a with stack := outs ++ rest } y).Ends w _
  rw [raise_bare (a := { a with stack := outs ++ rest }) h]
  exact .raised y

theorem ends_retval (hcode : a.body.code[a.pc]? = some .retval) (hst : a.stack = [x]) :
    (a.step w).Ends w (.done x) := by
  rw [step_operate (t := [x]) a hcode rfl rfl rfl hst]
  exact .done x

/-- A cast before the return lets the value pass or raises an exception. -/
theorem ends_checkcast {n : UInt32} {cls : Text} (hcode : Sits a.body.code a.pc [.checkcast n, .retval])
    (hcls : item? w.unit.strings n = some cls) (hst : a.stack = [x])
    (hbare : handlersAt a.body.func.handlers a.pc = []) :
    ∃ last, (a.step w).Ends w last ∧ (last = .done x ∨ ∃ y, last = .raised y) := by
  obtain ⟨hcast, hret⟩ := sits_cons_iff.mp hcode
  have hoperate : (Instr.checkcast n).operate w [x] =
      if x.isNull || isInstance w x cls then .next [x]
      else .turn (.raise (.ofText ("cannot cast " ++ w.classOf x ++ " to " ++ cls))) [] := by
    show Operation.withEntry w.unit.strings n _ = _
    unfold Operation.withEntry
    rw [hcls]
  rw [step_operate (t := [x]) a hcast rfl rfl rfl hst, hoperate]
  split
  · exact ⟨_, .next (ends_retval (sits_cons_iff.mp hret).1 rfl), .inl rfl⟩
  · exact ⟨_, ends_turn_raise hbare _ _ _, .inr ⟨_, rfl⟩⟩

/-- Whatever is raised, an activation without handlers ends, and an exception leaves it. -/
theorem ends_raise (hcode : a.body.code[a.pc]? = some .raise) (hst : a.stack = [x])
    (hbare : handlersAt a.body.func.handlers a.pc = []) :
    ∃ last, (a.step w).Ends w last ∧ ∀ y, x = .exception y → last = .raised y := by
  rw [step_operate (t := [x]) a hcode rfl rfl rfl hst]
  have htext : ∃ last, ((Operation.withText w x fun text =>
      .turn (.raise (.ofText ("throw of non-error value " ++ text))) []).step w a []).Ends w last := by
    unfold Operation.withText
    cases w.format x with
    | error f => exact ⟨_, .stopped f⟩
    | ok text => exact ⟨_, ends_turn_raise hbare _ _ _⟩
  obtain ⟨last, hlast⟩ := htext
  cases x with
  | exception y => exact ⟨_, ends_turn_raise hbare y _ _, fun z hz => by cases hz; rfl⟩
  | _ => exact ⟨last, hlast, fun z hz => by cases hz⟩

/-- A call that fails ends an activation without handlers. -/
theorem ends_receive_error (hbare : handlersAt a.body.func.handlers a.pc = []) (e : Error) :
    ∃ last, (a.receive w (.error e)).Ends w last := by
  unfold receive
  dsimp only
  split
  · rw [raise_bare hbare]
    exact ⟨_, .raised _⟩
  · exact ⟨_, .stopped _⟩

/-- An activation that ends after the answer of a call makes no other call. -/
theorem CallsOnce.of_answered {n : UInt32} {f : Symbol} {args : List Value}
    {R : Value → Step → Prop} (hglides : a.Glides w b)
    (hcode : b.body.code[b.pc]? = some (.invoke n)) (hf : item? w.unit.symbols n = some f)
    (hargs : args.length = f.params.length) (hst : b.stack = args.reverse) (hresult : f.result ≠ .void)
    (hbare : handlersAt b.body.func.handlers b.pc = [])
    (hend : ∀ (w' : Surroundings) (x : Value), w'.unit = w.unit →
      ∃ last, (step w' { b with stack := [x], pc := b.pc + 1 }).Ends w' last ∧ R x last) :
    a.CallsOnce w f args R := by
  refine ⟨{ b with stack := [] }, ⟨b, n, hglides, ?_, hf⟩, fun w' r hw => ?_⟩
  · exact step_invoke args hcode hf hargs (hst.trans (append_nil _).symm)
  · cases r with
    | error e =>
      obtain ⟨last, hlast⟩ := ends_receive_error (a := { b with stack := [] }) (w := w') hbare e
      exact ⟨last, hlast, fun v hv => by cases hv⟩
    | ok v =>
      obtain ⟨last, hlast, hR⟩ := hend w' v.received hw
      rw [receive_ok { b with stack := [] } hcode (hw ▸ hf), delivered, if_neg hresult]
      exact ⟨last, .next hlast, fun v' hv => by cases hv; exact hR⟩

/-- A switch that counts from one does not know other numbers. -/
theorem switchTarget_outside {targets : List UInt32} {otherwise : UInt32} {k : Int64}
    (hsmall : targets.length < 2 ^ 63) (hk : k.toInt < 1 ∨ (targets.length : Int) < k.toInt) :
    switchTarget 1 targets otherwise k = otherwise := by
  have hone : (1 : Int32).toInt64.toInt = 1 := by decide
  have hsub : (k - (1 : Int32).toInt64).toInt = (k.toInt - 1).bmod (2 ^ 64) := by
    rw [Int64.toInt_sub, hone]
  have hlow : -2 ^ 63 ≤ k.toInt := k.le_toInt
  have hhigh : k.toInt < 2 ^ 63 := k.toInt_lt
  unfold switchTarget
  dsimp only
  split
  · rfl
  next hpos =>
    rw [Int64.lt_iff_toInt_lt, hsub, Int64.toInt_zero] at hpos
    -- The least integer wraps around to the greatest one, which is beyond all targets.
    have hbeyond : (targets.length : Int) ≤ (k.toInt - 1).bmod (2 ^ 64) := by
      unfold Int.bmod at hpos ⊢
      dsimp only at hpos ⊢
      split at hpos <;> omega
    have hnone : targets[(k - (1 : Int32).toInt64).toNatClampNeg]? = none := by
      refine getElem?_eq_none ?_
      unfold Int64.toNatClampNeg
      omega
    rw [hnone]
    rfl

end Activation

/-! ## Points of a plan -/

/-- Code with locals of 32 bits can capture what the points of a plan ask for. -/
theorem Plan.shaped_of_make {a : Analyzer} {f : Func} {is : List Instr} {sites : List Nat} {plan : Plan}
    (h : make a f is sites = .ok plan)
    (hroom : ∀ p ∈ plan.points, plan.locals + p.depth + 1 < 2 ^ 32) {k : Nat} {p : Point}
    (hk : plan.points[k]? = some p) : p.id = k + 1 ∧ p.Shaped plan.locals := by
  obtain ⟨g, an, found, points, segments, -, -, hfound, hpoints, -, rfl⟩ := make_eq_ok.mp h
  obtain ⟨⟨⟨s, set⟩, k'⟩, hq, F, hF, hpoint⟩ := forall₂_getElem? hpoints hk
  rw [getElem?_zipIdx] at hq
  obtain ⟨q, hmem, heq⟩ := Option.map_eq_some_iff.mp hq
  cases heq
  have hheight : F.stack.length ≤ p.depth + 1 := by
    unfold Point.depth
    rw [(point_eq_ok hpoint).2.1, length_reverse, length_tail]
    omega
  have hsmall : f.maxLocals.toNat + p.depth + 1 < 2 ^ 32 := hroom p (mem_of_getElem? hk)
  obtain ⟨hid, -, hfits⟩ := fits_of_point hF (show f.maxLocals.toNat + _ < _ by omega)
    (Liveness.inReach_forSites hfound (mem_of_getElem? hmem)) hpoint
  exact ⟨by omega, hfits.shaped⟩

namespace Emission

variable {e : Emission} {s : Stop} {w : Surroundings} {b c : Body} {frag : Fragment Place}

/-- What the places in the code of a state machine rest on. -/
structure Outlined (e : Emission) (splits : List Int) : Prop where
  divides : e.plan.analysis.graph.Divides e.body e.function.handlers splits
  numbered : e.Numbered
  call : ∀ p ∈ e.plan.points, (p.instr : Int) ∈ splits ∧ ∃ n, e.body[p.instr]? = some (.invoke n)
  behind : ∀ p ∈ e.plan.points,
    e.plan.analysis.graph.blockNumber (p.instr + 1) ∈ e.plan.segments.tail.flatten
  resumed : ∀ p ∈ e.plan.points, ∀ h ∈ e.function.handlers, h.covers p.instr →
    e.plan.analysis.graph.blockNumber h.target.toNat ∈ e.plan.segments.tail.flatten
  name : e.plan.continuation = e.function.name ++ continuationSuffix

section

variable {a : Analyzer} {sites : List Nat}
  (h : Plan.make a e.function e.body sites = .ok e.plan)

include h

theorem outlined_of_make (hn : e.Numbered) : e.Outlined (sites.map Int.ofNat) := by
  have ho := Plan.outlined_of_make h
  have hsegmented {p : Point} (hp : p ∈ e.plan.points) : e.plan.Segmented e.function.handlers :=
    Plan.segmented_of_make h (ne_nil_of_mem hp)
  refine ⟨ho.divides, hn, fun p hp => ⟨?_, (ho.point p hp).1⟩,
    fun p hp => (hsegmented hp).root_mem hp (.inl rfl),
    fun p hp h' hh hcov => (hsegmented hp).root_mem hp (.inr ⟨h', hh, hcov, rfl⟩), ?_⟩
  · exact mem_map.mpr ⟨_, ho.order.subset (mem_map.mpr ⟨p, hp, rfl⟩), rfl⟩
  · obtain ⟨_, _, _, _, _, -, -, -, -, -, hplan⟩ := Plan.make_eq_ok.mp h
    rw [hplan]

theorem spills_of_make (hroomy : e.Roomy) {u : CodeUnit} (hprepared : e.Prepared u) : e.Spills u := by
  have hshaped {s : Stop} (hs : s ∈ e.stops) :
      s.point.id = s.number + 1 ∧ s.point.Shaped e.plan.locals := by
    refine Plan.shaped_of_make h (fun p hp => ?_) (hprepared.mem hs).2.1
    have hdeep := depth_le_deepest hp
    unfold Roomy at hroomy
    omega
  exact ⟨hprepared, hroomy, fun hs => (hshaped hs).2, fun hs => (hshaped hs).1⟩

end

/-! ## The code that captures -/

/-- The code at a place captures. With the locals of an activation, a stack that is given from the
bottom up and an awaited future on top, it makes one call, which hands over the future and the values
of the captured positions. It returns the answer, unless a cast fails. -/
def SuspendsAt (e : Emission) (w : Surroundings) (b : Body) (machine : Option UInt32) (s : Stop)
    (pc : Nat) : Prop :=
  ∀ (ls xs : List Value) (fut : Value), ls.length = b.func.maxLocals.toNat →
    xs.length = s.point.depth →
    ∃ m fs, machine.elim (some .null) (item? ls) = some m ∧
      s.point.Selects (ls.take e.plan.locals ++ xs) fs ∧
      Activation.CallsOnce w ⟨b, ls, fut :: xs.reverse, pc⟩ RuntimeCall.suspend
        [m, fut, .record s.layout fs, .int (Int64.ofNat s.point.id),
          .str (e.function.name ++ continuationSuffix)]
        fun v last => last = .done v ∨ ∃ x, last = .raised x

/-- Code that captures, in a body with enough locals and with no handler from there on. -/
theorem Spills.suspendsAt (hp : e.Spills w.unit) (hs : s ∈ e.stops)
    (hname : e.plan.continuation = e.function.name ++ continuationSuffix)
    {machine : Option UInt32} {pc : Nat} (hsits : Sits b.code pc (e.slowCode machine s))
    (hbare : ∀ q, pc ≤ q → handlersAt b.func.handlers q = [])
    (hroom : e.plan.locals + 1 + s.point.depth ≤ b.func.maxLocals.toNat)
    (hmachine : ∀ n, machine = some n →
      e.plan.locals + 1 + e.deepest ≤ n.toNat ∧ n.toNat < b.func.maxLocals.toNat) :
    e.SuspendsAt w b machine s pc := by
  intro ls xs fut hls hxs
  obtain ⟨m, hm⟩ : ∃ m, machine.elim (some .null) (item? ls) = some m := by
    cases machine with
    | none => exact ⟨.null, rfl⟩
    | some n =>
      have hlt := (hmachine n rfl).2
      exact ⟨_, getElem?_eq_getElem (show n.toNat < ls.length by omega)⟩
  -- What was there to capture, as an activation of the function would have it.
  let a : Activation := ⟨b, ls.take e.plan.locals, xs.reverse, pc⟩
  have hlocals : a.locals.length = e.plan.locals := by
    simp only [a, length_take]
    omega
  have hdepth : a.stack.length = s.point.depth := length_reverse.trans hxs
  have hselects := hp.selects_taken hs hlocals hdepth
  rw [show a.cells = ls.take e.plan.locals ++ xs by simp [a, cells]] at hselects
  obtain ⟨ls', pc', hle, hglides, hcall, hreturn⟩ :=
    hp.glides_suspend (a := a) (b := ⟨b, ls, fut :: xs.reverse, pc⟩) hs hlocals hdepth
      (List.take_prefix _ _) rfl (hls ▸ hroom) hm (fun n hn => (hmachine n hn).1) hsits
  refine ⟨m, taken s.point a, hm, hselects, ?_⟩
  rw [← hname]
  refine .of_answered hglides hcall hp.prepared.suspend rfl rfl (by decide) (hbare pc' hle)
    fun w' x hw => ?_
  split at hreturn
  · exact ⟨_, ends_retval (sits_cons_iff.mp hreturn).1 rfl, .inl rfl⟩
  · exact ends_checkcast hreturn (hw ▸ hp.prepared.resultClass) rfl
      (hbare _ (Nat.le_succ_of_le hle))

/-- A function that is built from a fragment has locals for what its code spills. -/
theorem Roomy.room_of_built (hroom : e.Roomy) (hdeep : s.point.depth ≤ e.deepest) {js : List Instr}
    {machine : Option UInt32} {count floor : UInt32} {params pc : Nat}
    (hcount : count = localsNeeded js params floor) (hsits : Sits js pc (e.slowCode machine s)) :
    e.plan.locals + 1 + s.point.depth ≤ count.toNat := by
  refine hroom.room_of_stores hdeep machine fun n hn hsmall => ?_
  obtain ⟨k, hk⟩ := mem_iff_getElem?.mp hn
  rw [hcount]
  exact (localsNeeded_spec js params floor).2.2 n
    (mem_filterMap.mpr ⟨_, mem_of_getElem? (hsits hk), rfl⟩) hsmall

/-- The code that captures at a stop, in a function that is built from a fragment. -/
theorem Outlined.suspendsAt {splits : List Int} (ho : e.Outlined splits) (hp : e.Spills w.unit)
    {included : List Nat} {machine : Option UInt32} {pre : List (Item Place)} {rest : List Stop}
    {extra : List (LabelledHandler Place)} {params : Nat} {floor : UInt32}
    (ha : e.Arranged included machine pre rest extra frag)
    (hfin : frag.finish = .ok (b.code, b.func.handlers)) (hsize : b.code.length < 2 ^ 32)
    (hcount : b.func.maxLocals = localsNeeded b.code params floor)
    (hextra : ∀ q, (codes pre).length ≤ q →
      coversAt (extra.map (LabelledHandler.toHandler frag.address)) q = [])
    (hmachine : ∀ n, machine = some n →
      e.plan.locals + 1 + e.deepest ≤ n.toNat ∧ n.toNat < b.func.maxLocals.toNat)
    (hrest : s ∈ rest) (hs : s ∈ e.stops) :
    e.SuspendsAt w b machine s (frag.address (.slow s.number)).toNat := by
  obtain ⟨j, hj⟩ := mem_iff_getElem?.mp hrest
  have hplace := ha.toNat_slow ho.divides hfin hsize hj
  have hsits := ha.sits_slow hfin hj
  rw [← hplace] at hsits
  refine hp.suspendsAt hs ho.name hsits (fun q hq => ?_)
    (hp.roomy.room_of_built (hp.depth_le hs) hcount hsits) hmachine
  refine handlersAt_of_coversAt ((ha.coversAt_slow ho.divides hfin hsize hj hq).trans (hextra q ?_))
  omega

/-! ## The code that puts back -/

/-- The continuation `c` puts a record back. It first asks for the outcome of the awaited future, and
then captured locals and slots hold the fields of the record, and other slots hold placeholders. -/
def RestoresAt (e : Emission) (w : Surroundings) (c : Body) (s : Stop) : Prop :=
  ∀ (m fut : Value) {fs : List Value}, fs.length = s.point.live.length →
    ∃ ls st pc, (Activation.start c [m, .int (Int64.ofNat s.point.id), .record s.layout fs,
        fut]).CallsFirst w RuntimeCall.join [fut] ⟨c, ls, st, pc⟩ ∧
      item? ls (e.home 0) = some m ∧ st.length = s.point.depth ∧
      s.point.Selects (ls.take e.plan.locals ++ st.reverse) fs ∧
      ∀ {j : Nat} {t : Ty}, s.point.stack[j]? = some t →
        UInt32.ofNat (e.plan.locals + j) ∉ s.point.live →
        st.reverse[j]? = some (if t = .int then .int 0 else .null)

/-- The continuation `c` makes an error of a resumption index and raises it. -/
def Refuses (w : Surroundings) (c : Body) (k : Int64) : Prop :=
  ∀ m r fut : Value, (Activation.start c [m, .int k, r, fut]).CallsOnce w RuntimeCall.newError
    [.str "invalid resumption index"] fun v last => ∀ x, v = .exception x → last = .raised x

section

variable {pos : Nat → Nat} (hr : e.Resumes c.code c.func.handlers pos)
  (hroom : e.plan.locals + e.deepest + 5 ≤ c.func.maxLocals.toNat) (hp : e.Spills w.unit)

include hr hroom hp

theorem Resumes.restoresAt (hs : s ∈ e.stops) : e.RestoresAt w c s := by
  intro m fut fs hfs
  obtain ⟨ls, st, hglides, -, hhome, hheight, hback, hplace⟩ :=
    hr.glides_join hroom hp hs fs hfs.symm m fut
  obtain ⟨hcall, -⟩ := sits_cons_iff.mp (hr.sits_join hs)
  refine ⟨ls, st, e.joinAt s + 1, ⟨_, e.join, hglides, ?_, hp.prepared.join⟩, hhome, hheight, hback,
    hplace⟩
  exact step_invoke [fut] hcall hp.prepared.join rfl rfl

theorem Resumes.refuses (hfew : e.stops.length < 2 ^ 32) {k : Int64}
    (hk : k.toInt < 1 ∨ (e.stops.length : Int) < k.toInt) : Refuses w c k := by
  intro m r fut
  obtain ⟨ls, hglides, -⟩ := hr.glides_dispatch (w := w) hroom hp.roomy m (.int k) r fut
  have hswitch : step w ⟨c, ls, [.int k], 9⟩ = .next ⟨c, ls, [], 10⟩ := by
    rw [step_operate (t := [.int k]) _ hr.switch rfl rfl rfl rfl]
    show Step.next ⟨_, _, _, (switchTarget 1 _ 10 k).toNat⟩ = _
    rw [switchTarget_outside (by rw [length_map]; omega)
      (by rwa [length_map])]
    rfl
  have hbare {q : Nat} (hq : q < 13) : handlersAt c.func.handlers q = [] := by
    refine hr.uncovered ?_ fun s _ => .inl ?_
    · rw [length_opening]
      unfold stubAt
      omega
    · unfold joinAt stubAt
      omega
  obtain ⟨hstr, hrest⟩ := sits_cons_iff.mp (show Sits c.code 10 e.invalidCode from
    (sits_append_iff.mp hr.opening).2)
  obtain ⟨hcall, hrest⟩ := sits_cons_iff.mp hrest
  obtain ⟨hraise, -⟩ := sits_cons_iff.mp hrest
  have hpush := step_shifts (w := w) (a := ⟨c, ls, [], 10⟩) hstr
    (.sconst hp.prepared.invalidIndex _ _)
  refine .of_answered (hglides.trans (.head hswitch (.single hpush))) hcall hp.prepared.newError rfl
    rfl (by decide) (hbare (show 11 < 13 by decide)) fun w' x _ => ?_
  exact ends_raise hraise rfl (hbare (show 12 < 13 by decide))

end

/-! ## Both functions -/

/-- **Capturing and putting back are inverse.** A function `b` and its continuation `c` hand over, in a
record, the values of what a point captures, and the continuation puts the fields of such a record back
in their places. -/
structure Inverse (e : Emission) (w : Surroundings) (b c : Body) : Prop where
  stops : e.stops.map Stop.point = e.plan.points
  suspends : ∀ {frag}, e.suspendable = .ok frag → ∀ s ∈ e.stops,
    e.SuspendsAt w b none s (frag.address (.slow s.number)).toNat
  suspendsAgain : ∀ {frag}, e.continuation = .ok frag → ∀ s ∈ e.stops,
    e.hasStop e.plan.segments.tail.flatten s →
    e.SuspendsAt w c (some (e.home 0)) s (frag.address (.slow s.number)).toNat
  restores : ∀ s ∈ e.stops, e.RestoresAt w c s
  refuses : ∀ {k : Int64}, k.toInt < 1 ∨ (e.plan.points.length : Int) < k.toInt → Refuses w c k

/-- A function that is built from a fragment, if its code can be addressed by 32 bits. -/
theorem exists_code_of_build {u : CodeUnit} {proto g : Func}
    {frames : FrameTable} (h : frag.build Place.number u proto frames = .ok g)
    (hsize : g.code.length < 2 ^ 32) :
    ∃ code, Instr.decodeAll g.code = .ok code ∧ code.length < 2 ^ 32 ∧
      frag.finish = .ok (code, g.handlers) ∧
      g.maxLocals = localsNeeded code proto.params.length proto.maxLocals := by
  obtain ⟨code, hfin, hcode, hlocals, -⟩ := Fragment.build_eq_ok h
  have hlen := Instr.length_le_encodeAll code
  rw [hcode] at hsize
  refine ⟨code, ?_, by omega, hfin, hlocals⟩
  rw [hcode]
  exact Instr.decodeAll_encodeAll hsize

/-- The function itself captures. -/
theorem Outlined.suspends {splits : List Int} (ho : e.Outlined splits) (hp : e.Spills w.unit)
    {params : Nat} {floor : UInt32} (h : e.suspendable = .ok frag)
    (hfin : frag.finish = .ok (b.code, b.func.handlers)) (hsize : b.code.length < 2 ^ 32)
    (hcount : b.func.maxLocals = localsNeeded b.code params floor) (hs : s ∈ e.stops) :
    e.SuspendsAt w b none s (frag.address (.slow s.number)).toNat :=
  ho.suspendsAt hp (arranged_of_suspendable h ho.numbered.nodup) hfin hsize hcount (fun _ _ => rfl)
    (fun n hn => by cases hn) hs hs

section

variable {splits : List Int} {frag : Fragment Place} {params : Nat} (ho : e.Outlined splits)
  (h : e.continuation = .ok frag) (hfin : frag.finish = .ok (c.code, c.func.handlers))
  (hsize : c.code.length < 2 ^ 32)

include ho h hfin hsize

/-- The continuation captures at the points that it can come to. -/
theorem Outlined.suspendsAgain (hp : e.Spills w.unit)
    (hcount : c.func.maxLocals = localsNeeded c.code params (e.home 3 + 1)) (hs : s ∈ e.stops)
    (hstop : e.hasStop e.plan.segments.tail.flatten s) :
    e.SuspendsAt w c (some (e.home 0)) s (frag.address (.slow s.number)).toNat := by
  have ha := arranged_of_continuation h ho.numbered.nodup
  have hroom := hp.roomy.room_of_home hcount
  have hin : ∀ s ∈ e.stops, ∀ h ∈ e.function.handlers, h.covers s.point.instr →
      e.graph.blockNumber h.target.toNat ∈ e.plan.segments.tail.flatten :=
    fun s hs => ho.resumed s.point (mem_of_getElem? (ho.numbered.mem hs).2)
  refine ho.suspendsAt hp ha hfin hsize hcount
    (fun q hq => coversAt_joins ha ho.divides hfin hsize ho.numbered.number hq hin) ?_
    (mem_filter.mpr ⟨hs, hstop⟩) hs
  intro n hn
  cases hn
  rw [hp.roomy.toNat_home (Nat.zero_le 3)]
  omega

/-- The continuation begins like one, and its stubs can be counted by 32 bits. -/
theorem Outlined.resumes :
    (∃ pos, e.Resumes c.code c.func.handlers pos) ∧ e.stops.length < 2 ^ 32 := by
  have hle := opening_le (arranged_of_continuation h ho.numbered.nodup) ho.divides hfin
  have hstubs := le_stubAt (e := e) (Nat.le_refl e.stops.length)
  rw [length_opening] at hle
  exact ⟨⟨_, (continuation_code h ho.divides hfin hsize ho.numbered ho.call ho.behind ho.resumed).2⟩,
    by omega⟩

end

end Emission

/-- **The code of a plan captures and puts back.** As far as 32 bits number the locals, the code and
the tables, and if no symbol of the unit is written like a runtime call without being it, both functions
that a plan becomes can be read back and are inverse to each other, wherever their unit is extended. -/
theorem Plan.capture_restore_inverse {a an : Analyzer} {f g c : Func} {is : List Instr}
    {sites : List Nat} {plan : Plan} {e : Emission} {u : CodeUnit}
    (h : Plan.make a f is sites = .ok plan) (hprepare : Emission.prepare f is plan a.unit = (e, u))
    (hruntime : a.unit.RuntimeDistinct) (hroomy : e.plan.locals + e.deepest + 5 < 2 ^ 32)
    (hfunctions : e.functions an = .ok (g, c))
    (hsmall : g.code.length < 2 ^ 32 ∧ c.code.length < 2 ^ 32) :
    ∃ code code', Instr.decodeAll g.code = .ok code ∧ Instr.decodeAll c.code = .ok code' ∧
      ∀ w : Surroundings, u.Extends w.unit → w.unit.Indexed →
        e.Inverse w ⟨g, code⟩ ⟨c, code'⟩ := by
  obtain ⟨frag, frag', hfrag, hfrag', hbuild, hbuild'⟩ := Emission.functions_eq_ok hfunctions
  obtain ⟨code, hdecode, hlen, hfin, hcount⟩ := Emission.exists_code_of_build hbuild hsmall.1
  obtain ⟨code', hdecode', hlen', hfin', hcount'⟩ := Emission.exists_code_of_build hbuild' hsmall.2
  have hroom := Emission.Roomy.room_of_home hroomy hcount'
  obtain ⟨-, -, hgrown⟩ := Emission.prepare_grows f is plan a.unit hruntime
  rw [hprepare] at hgrown
  refine ⟨code, code', hdecode, hdecode', fun w hw hindexed => ?_⟩
  obtain ⟨rfl, rfl, rfl, hprepared⟩ := hgrown w.unit hw hindexed
  have ho := Emission.outlined_of_make h hprepared.numbered
  have hp := Emission.spills_of_make h hroomy hprepared
  obtain ⟨⟨pos, hr⟩, hfew⟩ := ho.resumes (c := ⟨c, code'⟩) hfrag' hfin' hlen'
  refine ⟨ho.numbered.map_point, fun h₁ s hs => ?_, fun h₁ s hs hstop => ?_,
    fun s hs => hr.restoresAt hroom hp hs, fun {k} hk => ?_⟩
  · cases hfrag.symm.trans h₁
    exact ho.suspends hp hfrag hfin hlen hcount hs
  · cases hfrag'.symm.trans h₁
    exact ho.suspendsAgain hfrag' hfin' hlen' hp hcount' hs hstop
  · rw [← ho.numbered.map_point, List.length_map] at hk
    exact hr.refuses hroom hp hfew hk

/-! ### Numbers that are kept, and a machine that is not handed over -/

/-- The plan of a function and the two functions that it becomes, in the unit of an analyzer. -/
def Plan.built? (a : Analyzer) (f : Func) (is : List Instr) (sites : List Nat) :
    Option (Plan × (Emission × CodeUnit) × Func × Func) := do
  let plan ← (make a f is sites).toOption
  let prepared := Emission.prepare f is plan a.unit
  return (plan, prepared, ← (prepared.1.functions { a with unit := prepared.2 }).toOption)

theorem Plan.built?_eq_some {a : Analyzer} {f g c : Func} {is : List Instr} {sites : List Nat}
    {plan : Plan} {e : Emission} {u : CodeUnit} (h : built? a f is sites = some (plan, (e, u), g, c)) :
    make a f is sites = .ok plan ∧ Emission.prepare f is plan a.unit = (e, u) ∧
      e.functions { a with unit := u } = .ok (g, c) := by
  obtain ⟨plan', hplan, h⟩ := Option.bind_eq_some_iff.mp h
  obtain ⟨functions, hfunctions, h⟩ := Option.bind_eq_some_iff.mp h
  simp only [Option.pure_def, Option.some.injEq, Prod.mk.injEq] at h
  obtain ⟨rfl, hprepare, rfl⟩ := h
  rw [hprepare] at hfunctions
  exact ⟨toOption_eq_some.mp hplan, hprepare, toOption_eq_some.mp hfunctions⟩

/-- While it waits for its parameter it keeps one number in a local and two on the stack, and forgets
the last one. -/
def tallyFunc : Func where
  name := "tally"
  params := [.ref "Future"]
  result := .ref "Future"
  maxStack := 3
  maxLocals := 2

/-- The body of `tallyFunc`. -/
def tallyBody : List Instr :=
  [.iconst 5, .store 1, .iconst 7, .iconst 9, .load 0, .invoke 0, .pop, .pop, .load 1, .arith .add,
   .branch .nonzero 0, .load 0, .retval]

def tallyAnalyzer : Analyzer where
  unit := { symbols := [⟨"async/Await", "await", [.ref "Future"], .ref "Object"⟩] }
  classes := ⟨builtinSuper⟩

/-- The parameter, the local and the first number on the stack are captured, and the other number on
the stack is not. -/
theorem Plan.capture_restore_inverse_tally :
    ∃ plan e u g c code code', Plan.make tallyAnalyzer tallyFunc tallyBody [5] = .ok plan ∧
      Emission.prepare tallyFunc tallyBody plan tallyAnalyzer.unit = (e, u) ∧
      plan.points.map (fun p => (p.live, p.stack)) = [([0, 1, 2], [.int, .int])] ∧
      tallyAnalyzer.unit.RuntimeDistinct ∧ e.plan.locals + e.deepest + 5 < 2 ^ 32 ∧
      e.functions { tallyAnalyzer with unit := u } = .ok (g, c) ∧
      (g.code.length < 2 ^ 32 ∧ c.code.length < 2 ^ 32) ∧
      Instr.decodeAll g.code = .ok code ∧ Instr.decodeAll c.code = .ok code' ∧
      ∀ w : Surroundings, u.Extends w.unit → w.unit.Indexed →
        e.Inverse w ⟨g, code⟩ ⟨c, code'⟩ := by
  have h : (Plan.built? tallyAnalyzer tallyFunc tallyBody [5]).map (fun (plan, (e, _), g, c) =>
      (plan.points.map fun p => (p.live, p.stack),
        decide (e.plan.locals + e.deepest + 5 < 2 ^ 32 ∧
          g.code.length < 2 ^ 32 ∧ c.code.length < 2 ^ 32))) =
      some ([([0, 1, 2], [.int, .int])], true) := by
    decide +kernel
  obtain ⟨⟨plan, ⟨e, u⟩, g, c⟩, hbuilt, hfields⟩ := Option.map_eq_some_iff.mp h
  simp only [Prod.mk.injEq, decide_eq_true_eq] at hfields
  obtain ⟨hpoints, hroomy, hsmall⟩ := hfields
  obtain ⟨hplan, hprepare, hfunctions⟩ := Plan.built?_eq_some hbuilt
  have hruntime : tallyAnalyzer.unit.RuntimeDistinct := by
    unfold CodeUnit.RuntimeDistinct
    decide +kernel
  obtain ⟨code, code', hcode⟩ :=
    Plan.capture_restore_inverse hplan hprepare hruntime hroomy hfunctions hsmall
  exact ⟨plan, e, u, g, c, code, code', hplan, hprepare, hpoints, hruntime, hroomy, hfunctions, hsmall,
    hcode⟩

/-- A call that is written like the one that hands over, but takes no machine: its first parameter has a
class with a comma in its name. -/
def machinelessSuspend : Symbol :=
  ⟨"async/Machine", "suspend",
   [.ref "async/Machine,Future", .ref "async/State", .int, .ref "String"], .ref "Future"⟩

/-- Waits for its parameter and returns it. -/
def holdFunc : Func where
  name := "f"
  params := [.ref "Future"]
  result := .ref "Future"
  maxStack := 1
  maxLocals := 1

/-- The body of `holdFunc`. -/
def holdBody : List Instr := [.load 0, .invoke 0, .pop, .load 0, .retval]

def holdUnit : CodeUnit where
  classes := [⟨"Future", "async/Machine,Future"⟩]
  symbols := [⟨"async/Await", "await", [.ref "Future"], .ref "Object"⟩, machinelessSuspend]

def holdAnalyzer : Analyzer where
  unit := holdUnit
  classes := holdUnit.hierarchy .none

/-- A state machine calls what is written like the call that hands over, so it hands over no
machine. -/
theorem Plan.capture_without_machine :
    ∃ plan e u g c, Plan.make holdAnalyzer holdFunc holdBody [1] = .ok plan ∧
      Emission.prepare holdFunc holdBody plan holdUnit = (e, u) ∧
      e.plan.locals + e.deepest + 5 < 2 ^ 32 ∧
      e.functions { holdAnalyzer with unit := u } = .ok (g, c) ∧
      item? u.symbols e.suspend = some machinelessSuspend ∧
      ∀ (w : Surroundings) (b b' : Body), w.unit = u → ¬e.Inverse w b b' := by
  have h : (Plan.built? holdAnalyzer holdFunc holdBody [1]).map (fun (_, (e, u), _) =>
      (decide (e.plan.locals + e.deepest + 5 < 2 ^ 32), decide (0 < e.stops.length),
        item? u.symbols e.suspend, decide (RuntimeCall.suspend ∈ u.symbols))) =
      some (true, true, some machinelessSuspend, false) := by
    decide +kernel
  obtain ⟨⟨plan, ⟨e, u⟩, g, c⟩, hbuilt, hfields⟩ := Option.map_eq_some_iff.mp h
  simp only [Prod.mk.injEq, decide_eq_true_eq, decide_eq_false_iff_not] at hfields
  obtain ⟨hroomy, hstops, hsuspend, hmissing⟩ := hfields
  obtain ⟨hplan, hprepare, hfunctions⟩ := Plan.built?_eq_some hbuilt
  refine ⟨plan, e, u, g, c, hplan, hprepare, hroomy, hfunctions, hsuspend,
    fun w b b' hw hinverse => hmissing ?_⟩
  obtain ⟨frag, -, hfrag, -⟩ := Emission.functions_eq_ok hfunctions
  obtain ⟨s, hs⟩ := List.exists_mem_of_length_pos hstops
  obtain ⟨m, fs, -, -, _, ⟨_, n, -, -, hn⟩, -⟩ := hinverse.suspends hfrag s hs
    (List.replicate _ .null) (List.replicate _ .null) .null List.length_replicate
    List.length_replicate
  rw [← hw]
  exact List.mem_of_getElem? hn

end Resumable
