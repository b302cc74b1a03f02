import Resumable.Proofs.Emission.Capture

/-!
# Passing a point

An invocation of emitted code that comes to a point asks whether the awaited future is done. If it
is, the outcome is taken at once. If it is not, the live values are captured, the invocation returns
and is resumed when the future is settled; the continuation puts the values back and takes the outcome
then. In both cases the invocation comes to a join of the awaited future, with a stack and locals that
agree with those before the point on all that is live after it.
-/

namespace Resumable

open Activation List Moves

namespace Emission

/-- A function in a program, and its state machine in another, in one world. -/
structure Machinery {σ : Type} (e : Emission) (u : CodeUnit) (l : Liveness) (ctx : TypingContext)
    (sites : List Nat) (before after : Nat → UInt32 → Prop) (p p' : Program) (w : World σ) where
  planned : e.Planned u l ctx sites after
  table : l.Table e.function.handlers before after
  unit : p.unit = l.unit
  unit' : p'.unit = u
  classes : p'.classes = p.classes
  /-- The continuation. -/
  resumed : e.Copy u
  machine : resumed.machine = some (e.home 0)
  resumes : e.Resumes resumed.body.code resumed.body.func.handlers resumed.pos
  found : p'.body? e.plan.continuation = some resumed.body
  room : e.plan.locals + e.deepest + 5 ≤ resumed.body.func.maxLocals.toNat
  /-- No live position is left out. -/
  complete : ∀ s ∈ e.stops, ∀ v, after s.point.instr v →
    v.toNat < e.plan.locals + s.point.depth → v ∈ s.point.live
  awaits : ∀ {i : Nat} {n : UInt32} {s : Symbol}, i ∈ sites → l.body[i]? = some (.invoke n) →
    item? l.unit.symbols n = some s →
    s.service = .join ∧ s.params.length = 1 ∧ l.unit.suspends .standard (.invoke n)
  /-- The function does not suspend by itself. -/
  plain : ∀ {i : Nat} {n : UInt32} {s : Symbol}, l.body[i]? = some (.invoke n) →
    item? l.unit.symbols n = some s → s.service ≠ .suspend
  promise : ∀ state,
    p.classes.isSubclass (w.classOf state (.future w.promise)) e.function.result.className

/-- An invocation of the copy has the outcome of the future that the function awaits. After a value
it goes on behind the point. -/
structure Copy.Joined {e : Emission} {u : CodeUnit} (c : Copy e u) (m : Nat) (a b : Activation)
    (r : Attempt Value) : Prop extends c.Holds m a b where
  point : ∃ q ∈ e.plan.points, q.instr = a.pc
  covered : handlersAt c.body.func.handlers b.pc =
    (handlersAt e.function.handlers a.pc).map fun p => (p.1, c.pos p.2)
  goes : ∀ v, r = .ok v → b.stack = a.stack ∧ c.body.code[b.pc]? = some (.invoke e.join) ∧
    ∃ s ∈ e.stops, s.point.instr = a.pc ∧
      (Sits c.body.code (b.pc + 1) s.adapt ∧ c.pos (a.pc + 1) = b.pc + 1 + s.adapt.length ∨
        Sits c.body.code (b.pc + 1) (s.adapt ++ [.goto (UInt32.ofNat (c.pos (a.pc + 1)))]))

theorem service_isDone : RuntimeCall.isDone.service = .isDone := by decide

theorem service_join : RuntimeCall.join.service = .join := by decide

theorem service_suspend : RuntimeCall.suspend.service = .suspend := by decide

namespace Machinery

variable {σ : Type} {e : Emission} {u : CodeUnit} {l : Liveness} {ctx : TypingContext}
  {sites : List Nat} {before after : Nat → UInt32 → Prop} {p p' : Program} {w : World σ}
  (M : Machinery e u l ctx sites before after p p' w) {a b : Activation} {s : Stop}
  {v : Value} {rest : List Value} {o : Option Handover} {state : σ} {f : Nat}

include M

theorem surroundings_eq (state : σ) :
    w.surroundings p' state = (w.surroundings p state).within u := by
  unfold World.surroundings Surroundings.within
  rw [M.unit', M.classes]

/-- A join of the future on top of the stack. -/
theorem move_join (hcode : b.body.code[b.pc]? = some (.invoke e.join)) (hst : b.stack = v :: rest) :
    w.move p' ⟨.run b, o, state⟩ =
      .going ⟨.answered { b with stack := rest } (w.join state [v]).1, o, (w.join state [v]).2⟩
        none := by
  have hs : item? p'.unit.symbols e.join = some RuntimeCall.join := by
    rw [M.unit']
    exact M.planned.prepared.join
  rw [World.move_call rfl (step_invoke [v] hcode hs rfl hst) hs,
    World.call_join service_join]

variable (state) in
/-- A point begins with the question whether the future on top of the stack is done. -/
theorem reaches_asked (hsits : Sits b.body.code b.pc [.dup, .invoke e.isDone])
    (hst : b.stack = v :: rest) :
    ∃ n, Runs (w.move p') (n + 1) ⟨.run b, o, state⟩ []
      ⟨.answered { b with stack := v :: rest, pc := b.pc + 1 } (w.isDone state [v]), o, state⟩ := by
  obtain ⟨hdup, hcall⟩ := sits_cons_iff.mp hsits
  have hs : item? p'.unit.symbols e.isDone = some RuntimeCall.isDone := by
    rw [M.unit']
    exact M.planned.prepared.isDone
  have hshift : Instr.Shifts p'.unit .dup b.locals b.stack b.locals (v :: v :: rest) := by
    rw [hst]
    exact .dup _ _ _
  have hcode := (sits_cons_iff.mp hcall).1
  refine (Runs.one (World.move_next rfl (step_shifts hdup hshift))).reaches (.one ?_)
  rw [World.move_call rfl (step_invoke [v] hcode hs rfl rfl)
    hs, World.call_isDone service_isDone]

/-! ## Suspension -/

/-- The promised future passes the cast to the class that the function returns. -/
theorem move_promised (hcode : b.body.code[b.pc]? = some (.checkcast e.resultClass))
    (hst : b.stack = [.future w.promise]) :
    w.move p' ⟨.run b, o, state⟩ = .going ⟨.run { b with pc := b.pc + 1 }, o, state⟩ none := by
  obtain ⟨body, locals, stack, pc⟩ := b
  cases hst
  refine World.move_next rfl ?_
  rw [M.surroundings_eq, step_operate (t := [.future w.promise]) _ hcode rfl rfl rfl rfl]
  show (Operation.withEntry u.strings e.resultClass _).step _ _ _ = _
  unfold Operation.withEntry
  rw [M.planned.prepared.resultClass]
  show (if _ then _ else _ : Operation).step _ _ _ = _
  rw [if_pos]
  · rfl
  · exact M.promise state

/-- Code that returns the promised future. -/
theorem reaches_resumption {h : Handover}
    (hsits : Sits b.body.code b.pc ((if e.function.result.className = ClassName.future then []
      else [.checkcast e.resultClass]) ++ [.retval]))
    (hst : b.stack = [.future w.promise]) (hh : h.continuation = e.plan.continuation) :
    Reaches (w.move p') ⟨.run b, some h, state⟩
      ⟨.run (.start M.resumed.body h.args), none, w.await state h.awaited⟩ := by
  have hreturn {b' : Activation} (hcode : b'.body.code[b'.pc]? = some .retval)
      (hst' : b'.stack = [.future w.promise]) : w.move p' ⟨.run b', some h, state⟩ =
        .going ⟨.run (.start M.resumed.body h.args), none, w.await state h.awaited⟩ none := by
    have hstep : b'.step (w.surroundings p' state) = .done (.future w.promise) :=
      step_operate (t := [.future w.promise]) b' hcode rfl rfl rfl hst'
    refine (World.move_run (x := ⟨.run b', some h, state⟩) rfl hstep).trans ?_
    unfold World.follow World.leave
    dsimp only
    rw [hh, M.found]
  split at hsits
  · exact .one (hreturn (sits_cons_iff.mp hsits).1 hst)
  · obtain ⟨hcast, hret⟩ := sits_cons_iff.mp hsits
    exact .step (M.move_promised hcast hst) (.one (hreturn (sits_cons_iff.mp hret).1 hst))

variable (state) in
/-- **An invocation that suspends is resumed with what it captured.** -/
theorem reaches_suspension {c : Copy e u} (hs : s ∈ e.stops) (hh : c.Holds w.machine a b)
    (hlocals : a.locals.length = e.plan.locals) (hdepth : a.stack.length = s.point.depth)
    (hst : b.stack = .future f :: a.stack) (hroom : e.plan.locals + 1 + s.point.depth ≤ b.locals.length)
    (hsits : Sits b.body.code b.pc (e.slowCode c.machine s)) :
    Reaches (w.move p') ⟨.run b, none, state⟩
      ⟨.run (.start M.resumed.body [.machine w.machine, .int (Int64.ofNat s.point.id),
        .record s.layout (taken s.point a), .future f]), none, w.await state f⟩ := by
  obtain ⟨mv, hm, hmachine⟩ : ∃ mv, c.machine.elim (some .null) (item? b.locals) = some mv ∧
      (mv = .null ∨ mv = .machine w.machine) := by
    cases hc : c.machine with
    | none => exact ⟨.null, rfl, .inl rfl⟩
    | some n => exact ⟨.machine w.machine, hh.machine n hc, .inr rfl⟩
  have hspills : e.Spills (w.surroundings p' state).unit := by
    rw [M.surroundings_eq]
    exact M.planned.spills
  obtain ⟨ls, pc, -, hglides, hcall, hsits⟩ :=
    hspills.glides_suspend hs hlocals hdepth hh.locals hst hroom hm c.behind hsits
  refine (World.reaches_of_glides hglides none).trans ?_
  have hsym : item? p'.unit.symbols e.suspend = some RuntimeCall.suspend := by
    rw [M.unit']
    exact M.planned.prepared.suspend
  let h : Handover :=
    { continuation := e.plan.continuation, machine := w.machine
      index := Int64.ofNat s.point.id, state := .record s.layout (taken s.point a), awaited := f }
  have hhand : w.handover [mv, .future f, .record s.layout (taken s.point a),
      .int (Int64.ofNat s.point.id), .str e.plan.continuation] = some h := by
    rcases hmachine with rfl | rfl <;> rfl
  refine .step ((World.move_call rfl (step_invoke
    [mv, .future f, .record s.layout (taken s.point a), .int (Int64.ofNat s.point.id),
      .str e.plan.continuation] hcall hsym rfl rfl) hsym).trans
    (World.call_suspend service_suspend hhand)) ?_
  refine .step (World.move_ok rfl hcall hsym) ?_
  exact M.reaches_resumption (h := h) hsits rfl rfl

/-! ## Resumption -/

/-- Another activation that waits at the same point and agrees on all that is live after it. -/
structure Agrees (_ : Machinery e u l ctx sites before after p p' w) (a a' : Activation) : Prop where
  body : a'.body = a.body
  pc : a'.pc = a.pc
  locals : a'.locals.length = a.locals.length
  height : a'.stack.length = a.stack.length
  values : ∀ v, after a.pc v → a.valueAt v = a'.valueAt v

variable (state) in
/-- **A resumed invocation takes the outcome of the awaited future,** with all that was live back in
its place. -/
theorem reaches_outcome (hs : s ∈ e.stops) (hpc : a.pc = s.point.instr)
    (hlocals : a.locals.length = e.plan.locals) (hdepth : a.stack.length = s.point.depth) :
    ∃ a' b', Reaches (w.move p')
        ⟨.run (.start M.resumed.body [.machine w.machine, .int (Int64.ofNat s.point.id),
          .record s.layout (taken s.point a), v]), none, state⟩
        ⟨.answered b' (w.join state [v]).1, none, (w.join state [v]).2⟩ ∧
      M.resumed.Joined w.machine a' b' (w.join state [v]).1 ∧ M.Agrees a a' := by
  have hspills : e.Spills (w.surroundings p' state).unit := by
    rw [M.surroundings_eq]
    exact M.planned.spills
  obtain ⟨ls, st, hglides, hlen, h0, hheight, hback, -⟩ := M.resumes.glides_join M.room hspills hs
    (taken s.point a) (length_map _).symm (.machine w.machine) v
  have hroom := M.room
  obtain ⟨hcode, hadapt⟩ := sits_cons_iff.mp (M.resumes.sits_join hs)
  refine ⟨{ a with locals := ls.take e.plan.locals, stack := st },
    ⟨M.resumed.body, ls, st, e.joinAt s + 1⟩, ?_, ?_, ?_⟩
  · exact (World.reaches_of_glides hglides none).trans (.one (M.move_join hcode rfl))
  · refine ⟨⟨rfl, take_prefix _ _, hlen, ?_⟩, ⟨_, (M.planned.point hs).1, hpc.symm⟩,
      ?_, ?_⟩
    · intro n hn
      rw [M.machine] at hn
      cases hn
      exact h0
    · show _ = (handlersAt e.function.handlers a.pc).map _
      rw [hpc]
      exact M.resumes.joined s hs (Nat.le_succ _) (by simp [joinCode])
    · intro x hx
      refine ⟨rfl, hcode, s, hs, hpc.symm, .inr ?_⟩
      rw [hpc]
      exact hadapt
  · refine ⟨rfl, rfl, ?_, hheight.trans hdepth.symm, fun x hx => ?_⟩
    · show (ls.take e.plan.locals).length = _
      rw [length_take]
      omega
    · exact valueAt_eq_of_selects M.planned.spills hs hlocals hdepth (by omega) hheight hback
        (M.complete s hs x (hpc ▸ hx))

/-! ## Points -/

/-- Where a copy holds the code of a point, there are locals for what is spilled. -/
theorem room_of_sits {c : Copy e u} {slow : Nat} (hs : s ∈ e.stops)
    (hsits : Sits c.body.code slow (e.slowCode c.machine s)) :
    e.plan.locals + 1 + s.point.depth ≤ c.body.func.maxLocals.toNat := by
  refine M.planned.roomy.room_of_stores (M.planned.spills.depth_le hs) c.machine
    fun n hn _ => ?_
  obtain ⟨k, hk⟩ := mem_iff_getElem?.mp hn
  have hmem := mem_of_getElem? (hsits hk)
  exact ((CodeUnit.bodyOf_eq_ok.mp c.checked).2.2.2.1 _ hmem).2

variable (state) in
/-- The branch of a point leads to the code that captures if the future is not done. -/
theorem reaches_branch {slow : UInt32} (done : Bool)
    (hask : b.body.code[b.pc]? = some (.invoke e.isDone))
    (hbranch : b.body.code[b.pc + 1]? = some (.branch .zero slow)) :
    Reaches (w.move p') ⟨.answered b (.ok (.ofBool done)), o, state⟩
      ⟨.run { b with pc := if done then b.pc + 2 else slow.toNat }, o, state⟩ := by
  have hs : item? p'.unit.symbols e.isDone = some RuntimeCall.isDone := by
    rw [M.unit']
    exact M.planned.prepared.isDone
  refine .step (World.move_ok rfl hask hs) (.one (World.move_next rfl ?_))
  rw [step_operate (t := [.ofBool done]) _ hbranch rfl rfl rfl rfl]
  cases done <;> rfl

/-- **An invocation passes a point.** Whether the awaited value is no future, a settled one or a
pending one, it comes to what a join answers, and agrees with what it was on all that is live. -/
theorem passes_point {c : Copy e u} (h : c.Mirrors w.machine a b)
    (hfind : e.stops.find? (·.point.instr = a.pc) = some s) (hlt : a.pc < e.body.length)
    (hlocals : a.locals.length = e.plan.locals) (hst : a.stack = v :: rest)
    (hdepth : rest.length = s.point.depth) (state : σ) :
    ∃ n, ∃ c' : Copy e u, ∃ a' b', Runs (w.move p') (n + 1) ⟨.run b, none, state⟩ []
        ⟨.answered b' (w.join state [v]).1, none, (w.join state [v]).2⟩ ∧
      c'.Joined w.machine a' b' (w.join state [v]).1 ∧ M.Agrees { a with stack := rest } a' := by
  obtain ⟨slow, hfast, hslow, hpos⟩ := c.copies.stop hlt h.inside hfind
  have hs : s ∈ e.stops := mem_of_find?_eq_some hfind
  have hinstr : a.pc = s.point.instr := by
    have := find?_some hfind
    exact (of_decide_eq_true this).symm
  rw [← h.body, ← h.pc] at hfast
  have hlength : (e.fastCode s slow).length = 4 + s.adapt.length := by
    simp [fastCode]
    omega
  obtain ⟨hdup, hsits⟩ := sits_cons_iff.mp hfast
  obtain ⟨hask, hsits⟩ := sits_cons_iff.mp hsits
  obtain ⟨hbranch, hsits⟩ := sits_cons_iff.mp hsits
  obtain ⟨hjoin, hadapt⟩ := sits_cons_iff.mp hsits
  obtain ⟨n, hruns⟩ := M.reaches_asked state (o := none)
    (sits_cons_iff.mpr ⟨hdup, sits_cons_iff.mpr ⟨hask, fun k i hk => by cases hk⟩⟩) (h.stack.trans hst)
  have hcovered (q : Nat) (hq : q < 4) : handlersAt c.body.func.handlers (b.pc + q) =
      (handlersAt e.function.handlers a.pc).map fun p => (p.1, c.pos p.2) :=
    c.copies.handlers h.inside hlt (by rw [h.pc]; omega) (by rw [hpos, h.pc, hlength]; omega)
  have hpoint : ∃ q ∈ e.plan.points, q.instr = a.pc := ⟨_, (M.planned.point hs).1, hinstr.symm⟩
  have hholds : c.Holds w.machine { a with stack := rest } b := h.toHolds.of_eq rfl rfl rfl
  have hrefl : M.Agrees { a with stack := rest } { a with stack := rest } :=
    ⟨rfl, rfl, rfl, rfl, fun _ _ => rfl⟩
  cases hfuture : w.future state [v] with
  | error x =>
    have hdone : w.isDone state [v] = .error x := by
      unfold World.isDone
      rw [hfuture]
      rfl
    have hreply : w.join state [v] = (.error x, state) := by
      unfold World.join
      rw [hfuture]
    rw [hreply]
    rw [hdone] at hruns
    exact ⟨n, c, _, _, hruns, ⟨hholds.of_eq rfl rfl rfl, hpoint, hcovered 1 (by omega),
      fun _ h => by cases h⟩, hrefl⟩
  | ok f =>
    obtain rfl : v = .future f := by
      cases v <;> cases hfuture
      rfl
    have hdone : w.isDone state [.future f] = .ok (.ofBool (w.outcome? state f).isSome) := rfl
    rw [hdone] at hruns
    have hreach := M.reaches_branch (b := { b with stack := .future f :: rest, pc := b.pc + 1 })
      state (o := none) (w.outcome? state f).isSome hask hbranch
    obtain ⟨n, hruns⟩ := hruns.reaches hreach
    cases hsome : (w.outcome? state f).isSome with
    | true =>
      rw [hsome] at hruns
      obtain ⟨n, hruns⟩ := hruns.reaches (.one (M.move_join hjoin rfl))
      refine ⟨n, c, _, _, hruns, ⟨hholds.of_eq rfl rfl rfl, hpoint, hcovered 3 (by omega), ?_⟩,
        hrefl⟩
      intro x _
      refine ⟨rfl, h.body ▸ hjoin, s, hs, hinstr.symm, .inl ⟨h.body ▸ hadapt, ?_⟩⟩
      show c.pos (a.pc + 1) = b.pc + 4 + s.adapt.length
      rw [hpos, h.pc, hlength, Nat.add_assoc]
    | false =>
      rw [hsome] at hruns
      have hreply : w.join (w.await state f) [.future f] = w.join state [.future f] := by
        unfold World.join World.future
        dsimp only
        rw [w.await_await]
      have hsuspend := M.reaches_suspension state (a := { a with stack := rest })
        (b := { b with stack := .future f :: rest, pc := slow.toNat }) hs
        (hholds.of_eq rfl rfl rfl) hlocals hdepth rfl
        (Nat.le_trans (M.room_of_sits hs hslow) (Nat.le_of_eq h.count.symm)) (h.body ▸ hslow)
      obtain ⟨a', b', houtcome, hjoined, hagrees⟩ := M.reaches_outcome (w.await state f)
        (v := .future f) (a := { a with stack := rest }) hs hinstr hlocals hdepth
      rw [hreply] at houtcome hjoined
      obtain ⟨n, hruns⟩ := hruns.reaches (hsuspend.trans houtcome)
      exact ⟨n, M.resumed, a', b', hruns, hjoined, hagrees⟩

/-! ## Behind a point -/

/-- A value that passes for the type of the suspending call gets it. -/
theorem reaches_adapted (hs : s ∈ e.stops) (hsits : Sits b.body.code b.pc s.adapt)
    (hst : b.stack = v.received :: rest)
    (hpass : w.Passes p state s.point.await.result v.received) :
    Reaches (w.move p') ⟨.run b, o, state⟩
      ⟨.run { b with stack := delivered s.point.await.result v ++ rest,
                     pc := b.pc + s.adapt.length }, o, state⟩ := by
  obtain ⟨body, locals, stack, pc⟩ := b
  cases hst
  obtain ⟨_, _, htab⟩ := M.planned.prepared.mem hs
  have hadapt := htab.adapt
  unfold Adapts at hadapt
  split at hadapt
  next hvoid =>
    rw [hadapt] at hsits ⊢
    rw [hvoid]
    exact .one (World.move_next rfl (step_shifts (sits_cons_iff.mp hsits).1 (.pop _ _ _)))
  next hvoid =>
    have hdelivered : delivered s.point.await.result v = [v.received] := if_neg hvoid
    rw [hdelivered]
    split at hadapt
    next =>
      rw [hadapt]
      exact .refl _ _
    next hobject =>
      obtain ⟨n, hn, hadapt⟩ := hadapt
      rw [hadapt] at hsits ⊢
      refine .one (World.move_next rfl ?_)
      rw [M.surroundings_eq, step_operate (t := [v.received]) _
        (sits_cons_iff.mp hsits).1 rfl rfl rfl rfl]
      show (Operation.withEntry u.strings n _).step _ _ _ = _
      unfold Operation.withEntry
      rw [hn]
      show (if _ then _ else _ : Operation).step _ _ _ = _
      rw [if_pos]
      · rfl
      · rcases hpass with h | h | h | ⟨cls, h, hsub⟩
        · exact absurd h hvoid
        · exact absurd (congrArg Ty.className h) hobject
        · rw [h, Bool.true_or]
        · rw [h]
          show (v.received.isNull || (!v.received.isNull &&
            p.classes.isSubclass (w.classOf state v.received) cls)) = true
          rw [hsub]
          cases v.received.isNull <;> rfl

variable (state) in
/-- **After the outcome of a point an invocation is behind it.** -/
theorem goes_on {c : Copy e u} (hj : c.Joined w.machine a b (.ok v))
    (hpass : ∀ s ∈ e.stops, s.point.instr = a.pc →
      w.Passes p state s.point.await.result v.received) :
    ∃ n b', ∃ s ∈ e.stops, s.point.instr = a.pc ∧
      Runs (w.move p') (n + 1) ⟨.answered b (.ok v), none, state⟩ [] ⟨.run b', none, state⟩ ∧
      c.Mirrors w.machine { a with
        stack := delivered s.point.await.result v ++ a.stack, pc := a.pc + 1 } b' := by
  obtain ⟨hst, hcode, s, hs, hinstr, hplace⟩ := hj.goes v rfl
  have hsym : item? p'.unit.symbols e.join = some RuntimeCall.join := by
    rw [M.unit']
    exact M.planned.prepared.join
  rw [← hj.body] at hcode hplace
  have hruns := Runs.one (World.move_ok (w := w) (p := p') (x := ⟨.answered b (.ok v), none, state⟩) rfl
    hcode hsym)
  have hinside : e.graph.blockNumber (a.pc + 1) ∈ c.included := by
    rw [← hinstr]
    exact c.encloses.behind _ (M.planned.point hs).1
  rw [hst] at hruns
  have hsits : Sits b.body.code (b.pc + 1) s.adapt :=
    hplace.elim And.left fun h => (sits_append_iff.mp h).1
  obtain ⟨n, hruns⟩ := hruns.reaches (M.reaches_adapted hs hsits rfl (hpass s hs hinstr))
  rcases hplace with ⟨_, hpos⟩ | hgoto
  · refine ⟨n, _, s, hs, hinstr, hruns, hj.toHolds.of_eq rfl rfl rfl, ?_, hinside, rfl⟩
    exact hpos.symm
  · have hjump := (sits_cons_iff.mp (sits_append_iff.mp hgoto).2).1
    obtain ⟨n, hruns⟩ := hruns.reaches (.one (World.move_next rfl (step_goto hjump)))
    refine ⟨n, _, s, hs, hinstr, hruns, hj.toHolds.of_eq rfl rfl rfl, ?_, hinside, rfl⟩
    refine UInt32.toNat_ofNat_of_lt' (c.copies.small ?_)
    obtain ⟨_, m, hm⟩ := M.planned.call (M.planned.point hs).1
    have := M.planned.divides.nexts_lt hm (s.point.instr + 1) mem_cons_self
    rw [hinstr] at this
    exact Nat.le_of_lt this

end Machinery

end Emission

end Resumable
