import Resumable.Proofs.Emission.Passage

/-!
# A state machine does what its function did

An invocation of a function and one of its state machine are run side by side. Between them stands an
activation of the function that need not be the one that runs: it agrees with that one on all that is
live, and the state machine holds a copy of it. What is not live is lost when the machine is resumed,
and the activation in between loses it there.

Every move of the function is matched by moves of the machine with the same visible effect. Since both
are deterministic, they do the same: the same calls with the same arguments in the same order, and the
same end.
-/

namespace Resumable

open Activation List Moves

/-- More locals come after those that there were. -/
theorem Activation.start_locals_prefix {b b' : Body} (h : b.func.maxLocals ≤ b'.func.maxLocals)
    (args : List Value) : (start b args).locals <+: (start b' args).locals := by
  have hle := UInt32.le_iff_toNat_le.mp h
  obtain ⟨more, hmore⟩ : ∃ more, args ++ replicate (b'.func.maxLocals.toNat - args.length) .null =
      args ++ replicate (b.func.maxLocals.toNat - args.length) Value.null ++ more := by
    refine ⟨replicate (b'.func.maxLocals.toNat - args.length -
      (b.func.maxLocals.toNat - args.length)) .null, ?_⟩
    rw [append_assoc, replicate_append_replicate]
    congr 2
    omega
  show (args ++ _).take _ <+: (args ++ _).take _
  have hlen : b.func.maxLocals.toNat ≤
      (args ++ replicate (b.func.maxLocals.toNat - args.length) Value.null).length := by
    rw [length_append, length_replicate]
    omega
  rw [hmore, ← take_append_of_le_length hlen]
  exact take_isPrefix_take.mpr (.inl hle)

theorem Activation.length_start_locals (b : Body) (args : List Value) :
    (start b args).locals.length = b.func.maxLocals.toNat := by
  show ((args ++ _).take _).length = _
  rw [length_take, length_append, length_replicate]
  omega

namespace Emission.Machinery

variable {σ : Type} {e : Emission} {u : CodeUnit} {l : Liveness} {ctx : TypingContext}
  {sites : List Nat} {before after : Nat → UInt32 → Prop} {p p' : Program} {w : World σ}

/-- Where an invocation of the function and one of its machine are. -/
inductive Matches (M : Machinery e u l ctx sites before after p p' w) : Stage → Stage → Prop
  | run {a a' b : Activation} (c : Copy e u) (ht : l.Twins e.function before a a')
      (hm : c.Mirrors w.machine a' b) : Matches M (.run a) (.run b)
  /-- Both have the answer of a call that was copied. -/
  | answered {a a' b : Activation} (c : Copy e u) (r : Attempt Value)
      (hw : l.Waiting e.function after a a') (hm : c.Mirrors w.machine a' b)
      (hstop : e.stops.find? (·.point.instr = a.pc) = none) :
      Matches M (.answered a r) (.answered b r)
  /-- Both have the outcome of an awaited future. -/
  | joined {a a' b : Activation} (c : Copy e u) (r : Attempt Value)
      (hw : l.Waiting e.function after a a') (hj : c.Joined w.machine a' b r) :
      Matches M (.answered a r) (.answered b r)

/-- An invocation of the function and one of its machine in the same state of the world. -/
structure Pairs (M : Machinery e u l ctx sites before after p p' w) (x y : Invoked σ) : Prop where
  stage : M.Matches x.stage y.stage
  handover : x.handover = none ∧ y.handover = none
  state : y.state = x.state

variable (M : Machinery e u l ctx sites before after p p' w) {a a' b : Activation} {s : Stop}
  {c : Copy e u} {state : σ}

theorem Matches.pairs {x y : Stage} (h : M.Matches x y) (state : σ) :
    M.Pairs ⟨x, none, state⟩ ⟨y, none, state⟩ := ⟨h, ⟨rfl, rfl⟩, rfl⟩

include M

omit M in
theorem Agrees.waiting {M : Machinery e u l ctx sites before after p p' w} {a₁ a₂ : Activation}
    (h : M.Agrees a₁ a₂) (hw : l.Waiting e.function after a a₁) :
    l.Waiting e.function after a a₂ := by
  obtain ⟨halike, hrest⟩ := hw
  refine ⟨⟨⟨halike.body.1, h.body.trans halike.body.2⟩, halike.pc.trans h.pc.symm,
    ⟨halike.locals.1, h.locals.trans halike.locals.2⟩, halike.height.trans h.height.symm, ?_⟩, hrest⟩
  intro v hv
  exact (halike.values v hv).trans (h.values v (halike.pc ▸ hv))

/-! ## Steps -/

/-- A call that was copied is answered in the same way. -/
theorem matched_call {a₀ b₀ : Activation} {n : UInt32} {f : Symbol} {args : List Value}
    (hw : l.Waiting e.function after a a') (hm : c.Mirrors w.machine a' b)
    (hstop : e.stops.find? (·.point.instr = a.pc) = none)
    (hcode : l.body[a.pc]? = some (.invoke n)) (hf : item? l.unit.symbols n = some f)
    (hmove : w.move p' ⟨.run b₀, none, state⟩ = w.call ⟨.run b₀, none, state⟩ b f args) :
    Matched (w.move p') M.Pairs ⟨.run b₀, none, state⟩ (w.call ⟨.run a₀, none, state⟩ a f args) := by
  cases hs : f.service with
  | isDone =>
    rw [World.call_isDone hs] at hmove ⊢
    exact ⟨0, _, .one hmove, Matches.pairs M (.answered c _ hw hm hstop) _⟩
  | join =>
    rw [World.call_join hs] at hmove ⊢
    exact ⟨0, _, .one hmove, Matches.pairs M (.answered c _ hw hm hstop) _⟩
  | suspend => exact absurd hs (M.plain hcode hf)
  | other =>
    rw [World.call_other hs] at hmove ⊢
    exact ⟨0, _, .one hmove, Matches.pairs M (.answered c _ hw hm hstop) _⟩

/-- The symbol of a call. -/
theorem exists_symbol {i : Nat} {n : UInt32} (hcode : l.body[i]? = some (.invoke n)) :
    ∃ f, item? l.unit.symbols n = some f :=
  ((CodeUnit.bodyOf_eq_ok.mp M.planned.checked).2.2.2.1 _ (mem_of_getElem? hcode)).2

/-- **An instruction that was copied does what it did.** -/
theorem matched_copied (ht : l.Twins e.function before a a') (hm : c.Mirrors w.machine a' b)
    (hstop : e.stops.find? (·.point.instr = a.pc) = none) :
    Matched (w.move p') M.Pairs ⟨.run b, none, state⟩ (w.move p ⟨.run a, none, state⟩) := by
  obtain ⟨halike, F, hF, hheight⟩ := id ht
  obtain ⟨i, pops, pushes, hi, he, hpops⟩ := M.planned.fits.effect hF
  have hstep := ht.step M.planned.fits M.table (w := w.surroundings p state) M.unit
  have hcopy : c.Follows w.machine (a'.step (w.surroundings p state))
      (b.step ((w.surroundings p state).within u)) := by
    refine hm.step M.planned M.unit ?_ ?_ (halike.pc ▸ hF) (halike.height ▸ hheight) (halike.pc ▸ hstop)
    · rw [M.planned.code]
      exact halike.body.2
    · rw [M.planned.plan.locals]
      exact halike.locals.2
  have hcall {n : UInt32} {args : List Value} {a₁ : Activation}
      (h : a.step (w.surroundings p state) = .call n args a₁) : i = .invoke n ∧ a₁.pc = a.pc := by
    refine eq_invoke_of_step (by rw [halike.body.1]; exact hi) (M.unit ▸ he) (by omega) ?_ h
    rintro m rfl
    have hrefers := (CodeUnit.bodyOf_eq_ok.mp M.planned.checked).2.2.2.1 _ (mem_of_getElem? hi)
    refine exists_item?_iff.mpr ?_
    rw [halike.locals.1, M.planned.locals]
    exact UInt32.lt_iff_toNat_lt.mp hrefers.2
  have hmove := World.move_run (w := w) (p := p') (x := ⟨.run b, none, state⟩) rfl rfl
  rw [M.surroundings_eq] at hmove
  rw [World.move_run (x := ⟨.run a, none, state⟩) rfl rfl]
  generalize a.step (w.surroundings p state) = x at hstep hcall
  generalize a'.step (w.surroundings p state) = y at hstep hcopy
  generalize b.step ((w.surroundings p state).within u) = z at hcopy hmove
  cases hstep with
  | next ht' =>
    cases hcopy with
    | next hm' => exact ⟨0, _, .one hmove, Matches.pairs M (.run c ht' hm') _⟩
  | call n args hw =>
    cases hcopy with
    | call _ _ hm' =>
      obtain ⟨rfl, hpc⟩ := hcall rfl
      obtain ⟨f, hf⟩ := M.exists_symbol hi
      have hsym : item? p.unit.symbols n = some f := by rw [M.unit]; exact hf
      have hsym' : item? p'.unit.symbols n = some f := by
        rw [M.unit']
        exact item?_mono M.planned.extended.symbols hf
      unfold World.follow at hmove ⊢
      dsimp only at hmove ⊢
      rw [hsym'] at hmove
      rw [hsym]
      exact M.matched_call hw hm' (by rw [hpc]; exact hstop) (by rw [hpc]; exact hi) hf hmove
  | done v | raised x | stopped f =>
    cases hcopy
    exact ⟨0, _, .nil _, hmove⟩

/-- **A suspending call is a point that is passed.** -/
theorem matched_point (ht : l.Twins e.function before a a') (hm : c.Mirrors w.machine a' b)
    (hfind : e.stops.find? (·.point.instr = a.pc) = some s) :
    Matched (w.move p') M.Pairs ⟨.run b, none, state⟩ (w.move p ⟨.run a, none, state⟩) := by
  obtain ⟨halike, F, hF, hheight⟩ := id ht
  have hs : s ∈ e.stops := mem_of_find?_eq_some hfind
  have hinstr : s.point.instr = a.pc := by
    have := find?_some hfind
    exact of_decide_eq_true this
  obtain ⟨_, _, hsite, F', hfits⟩ := M.planned.point hs
  obtain ⟨n, hi, hf⟩ := hfits.call
  obtain ⟨hservice, hparams, _⟩ := M.awaits hsite hi hf
  have hframe := hfits.frame
  rw [hinstr] at hi hframe
  obtain rfl : F = F' := Option.some.inj (hF.symm.trans hframe)
  obtain ⟨i, pops, pushes, hi', he, hpops⟩ := M.planned.fits.effect hF
  obtain rfl : i = .invoke n := Option.some.inj (hi'.symm.trans hi)
  obtain rfl : pops = 1 := by
    obtain ⟨f', hf', heq⟩ := Option.map_eq_some_iff.mp he
    obtain rfl : f' = s.point.await := Option.some.inj (hf'.symm.trans hf)
    rw [← (Prod.mk.inj heq).1, hparams]
  obtain ⟨v, rest, hst⟩ := exists_cons_of_length_pos (l := a.stack) (by omega)
  obtain ⟨v', rest', hst'⟩ := exists_cons_of_length_pos (l := a'.stack) (by
    have := halike.height
    omega)
  have hsym : item? (w.surroundings p state).unit.symbols n = some s.point.await := by
    show item? p.unit.symbols n = _
    rw [M.unit]
    exact hf
  have hcode : a.body.code[a.pc]? = some (.invoke n) ∧ a'.body.code[a'.pc]? = some (.invoke n) := by
    rw [halike.body.1, halike.body.2, ← halike.pc]
    exact ⟨hi, hi⟩
  have hcall := step_invoke (w := w.surroundings p state) [v] hcode.1 hsym hparams.symm
    hst
  have hcall' := step_invoke (w := w.surroundings p state) [v'] hcode.2 hsym hparams.symm
    hst'
  have hagrees := ht.step M.planned.fits M.table (w := w.surroundings p state) M.unit
  rw [hcall, hcall'] at hagrees
  cases hagrees with
  | call _ _ hw =>
    have hmove := World.move_call (w := w) (x := ⟨.run a, none, state⟩) rfl hcall hsym
    rw [World.call_join hservice] at hmove
    have hlt : a'.pc < e.body.length := by
      rw [M.planned.code, ← halike.pc]
      exact lt_of_getElem? hi
    have hdepth : rest'.length = s.point.depth := by
      have hlen := halike.height
      rw [hst, hst'] at hlen
      rw [hst] at hheight
      show _ = s.point.stack.length
      rw [hfits.stack, length_reverse, length_tail]
      simp only [length_cons] at hlen hheight
      omega
    obtain ⟨m, c', a'', b', hruns, hj, hag⟩ := M.passes_point hm (halike.pc ▸ hfind) hlt
      (halike.locals.2.trans M.planned.plan.locals.symm) hst' hdepth state
    rw [hmove]
    exact ⟨m, _, hruns, Matches.pairs M (.joined c' _ (hag.waiting hw) hj) _⟩

/-! ## Answers -/

/-- What an answer leads to. -/
theorem matched_proceed {x y z : Step} {stage stage' : Stage}
    (h : Liveness.Agrees l e.function before after x y) (h' : c.Follows w.machine y z)
    (hx : ∀ f, x ≠ .stopped f)
    (hmove : w.move p' ⟨stage', none, state⟩ = World.proceed ⟨stage', none, state⟩ z) :
    Matched (w.move p') M.Pairs ⟨stage', none, state⟩ (World.proceed ⟨stage, none, state⟩ x) := by
  cases h with
  | next ht =>
    cases h' with
    | next hm => exact ⟨0, _, .one hmove, Matches.pairs M (.run c ht hm) _⟩
  | call n args hw | done v | raised x =>
    cases h'
    exact ⟨0, _, .nil _, hmove⟩
  | stopped f => exact absurd rfl (hx f)

/-- **An error takes both to the same handler, or ends them.** -/
theorem matched_error (hw : l.Waiting e.function after a a') (hh : c.Holds w.machine a' b)
    (hin : e.graph.blockNumber a'.pc ∈ c.included ∨
      ∃ q ∈ e.plan.points, q.instr = a'.pc)
    (hcov : handlersAt c.body.func.handlers b.pc =
      (handlersAt e.function.handlers a'.pc).map fun q => (q.1, c.pos q.2)) (f : Failure) :
    Matched (w.move p') M.Pairs ⟨.answered b (.error f), none, state⟩
      (w.move p ⟨.answered a (.error f), none, state⟩) := by
  obtain ⟨halike, F, n, _, _, hF, hi, _⟩ := hw
  cases f with
  | outOfRange | endless => exact ⟨0, _, .nil _, rfl⟩
  | error x =>
    cases hx : x.raised? with
    | none =>
      have hstop (q : Program) (d : Activation) :
          w.move q ⟨.answered d (.error (.error x)), none, state⟩ = .ended (.failed (.error x)) := by
        unfold World.move receive
        dsimp only
        rw [hx]
        rfl
      rw [hstop]
      exact ⟨0, _, .nil _, hstop p' b⟩
    | some exc =>
      have hraise (q : Program) (d : Activation) :
          w.move q ⟨.answered d (.error (.error x)), none, state⟩ =
            World.proceed ⟨.answered d (.error (.error x)), none, state⟩
              (d.raise (w.surroundings q state) exc) := by
        unfold World.move receive
        dsimp only
        rw [hx]
      have hmove := hraise p' b
      rw [M.surroundings_eq] at hmove
      rw [hraise]
      refine M.matched_proceed (Liveness.raise_agrees M.planned.fits M.table halike hF exc)
        (hh.raise (congrArg Body.func halike.body.2) rfl ?_ hin hcov exc) ?_ hmove
      · rw [M.planned.code, ← halike.pc]
        exact lt_of_getElem? hi
      · intro f
        unfold raise
        split <;> intro h <;> cases h

/-- **The answer of a copied call is taken as it was.** -/
theorem matched_answer (hw : l.Waiting e.function after a a') (hm : c.Mirrors w.machine a' b)
    (hstop : e.stops.find? (·.point.instr = a.pc) = none) (r : Attempt Value) :
    Matched (w.move p') M.Pairs ⟨.answered b r, none, state⟩
      (w.move p ⟨.answered a r, none, state⟩) := by
  obtain ⟨halike, F, n, _, _, hF, hi, _⟩ := id hw
  rw [halike.pc] at hi hstop
  have hlt : a'.pc < e.body.length := by
    rw [M.planned.code]
    exact lt_of_getElem? hi
  have hi' : e.body[a'.pc]? = some (.invoke n) := by
    rw [M.planned.code]
    exact hi
  cases r with
  | error f =>
    refine M.matched_error hw hm.toHolds (.inl hm.inside) ?_ f
    have hsucc := (c.copies.instr hi' hm.inside hstop).2
    rw [hm.pc]
    exact c.copies.handlers hm.inside hlt (Nat.le_refl _) (by omega)
  | ok v =>
    obtain ⟨f, hf⟩ := M.exists_symbol hi
    have hmove : w.move p' ⟨.answered b (.ok v), none, state⟩ =
        World.proceed ⟨.answered b (.ok v), none, state⟩
          (b.receive (w.surroundings p' state) (.ok v)) := rfl
    rw [M.surroundings_eq] at hmove
    refine M.matched_proceed (hw.receive M.planned.fits M.table (w := w.surroundings p state) M.unit
      (.ok v)) (hm.receive_ok M.planned M.unit ?_ hi' hf hstop v) (fun f h => by cases h) hmove
    rw [M.planned.code]
    exact halike.body.2

/-- **The outcome of a point is taken as it was,** if it passes for the type that is asked for. -/
theorem matched_outcome (hw : l.Waiting e.function after a a') {r : Attempt Value}
    (hj : c.Joined w.machine a' b r)
    (hc : w.Conforms p ⟨.answered a r, none, state⟩) :
    Matched (w.move p') M.Pairs ⟨.answered b r, none, state⟩
      (w.move p ⟨.answered a r, none, state⟩) := by
  obtain ⟨halike, F, n, _, _, hF, hi, _⟩ := id hw
  cases r with
  | error f => exact M.matched_error hw hj.toHolds (.inr hj.point) hj.covered f
  | ok v =>
    have hcode : a.body.code[a.pc]? = some (.invoke n) ∧ a'.body.code[a'.pc]? = some (.invoke n) := by
      rw [halike.body.1, halike.body.2, ← halike.pc]
      exact ⟨hi, hi⟩
    have hcall {s : Stop} (hs : s ∈ e.stops) (hinstr : s.point.instr = a'.pc) :
        item? l.unit.symbols n = some s.point.await ∧ l.unit.suspends .standard (.invoke n) := by
      obtain ⟨_, _, hsite, F', hfits⟩ := M.planned.point hs
      obtain ⟨n', hi', hf⟩ := hfits.call
      obtain rfl : n' = n := by
        rw [hinstr, ← halike.pc, hi] at hi'
        cases hi'
        rfl
      exact ⟨hf, (M.awaits hsite hi' hf).2.2⟩
    obtain ⟨k, b', s, hs, hinstr, hruns, hm⟩ := M.goes_on state hj fun s hs hinstr => by
      obtain ⟨hf, hsuspends⟩ := hcall hs hinstr
      refine hc a v _ _ rfl hcode.1 ?_ ?_
      · rw [M.unit]
        exact hsuspends
      · rw [M.unit]
        exact hf
    have hf : item? (w.surroundings p state).unit.symbols n = some s.point.await := by
      show item? p.unit.symbols n = _
      rw [M.unit]
      exact (hcall hs hinstr).1
    have hreceive := hw.receive M.planned.fits M.table (w := w.surroundings p state) M.unit (.ok v)
    rw [receive_ok a hcode.1 hf, receive_ok a' hcode.2 hf] at hreceive
    rw [World.move_ok (x := ⟨.answered a (.ok v), none, state⟩) rfl hcode.1 hf]
    cases hreceive with
    | next ht => exact ⟨k, _, hruns, Matches.pairs M (.run c ht hm) _⟩

/-- **Every move of the function is matched by its machine.** -/
theorem matched {x y : Invoked σ} (h : M.Pairs x y) (hc : w.Conforms p x) :
    Matched (w.move p') M.Pairs y (w.move p x) := by
  obtain ⟨stage, handover, state⟩ := x
  obtain ⟨stage', handover', state'⟩ := y
  obtain ⟨hstage, ⟨rfl, rfl⟩, rfl⟩ := h
  cases hstage with
  | @run a a' b c ht hm =>
    cases hfind : e.stops.find? (·.point.instr = a.pc) with
    | none => exact M.matched_copied ht hm hfind
    | some s => exact M.matched_point ht hm hfind
  | answered c r hw hm hstop => exact M.matched_answer hw hm hstop r
  | joined c r hw hj => exact M.matched_outcome hw hj hc

/-! ## Invocations -/

/-- Invocations of the function and of its machine with the same arguments are at the same place. -/
theorem matches_start (hpos : c.pos 0 = 0)
    (hin : e.graph.blockNumber 0 ∈ c.included) (hmachine : c.machine = none)
    (hlocals : e.function.maxLocals ≤ c.body.func.maxLocals) (args : List Value) :
    M.Matches (.run (.start ⟨e.function, l.body⟩ args)) (.run (.start c.body args)) := by
  obtain ⟨F, hF, hheight⟩ := Liveness.height_of_admits M.planned.fits.typing.entry
  have hcount : (start ⟨e.function, l.body⟩ args).locals.length = l.locals :=
    (length_start_locals _ args).trans M.planned.locals.symm
  refine .run c ⟨⟨⟨rfl, rfl⟩, rfl, ⟨hcount, hcount⟩, rfl, fun _ _ => rfl⟩, F, hF, hheight.symm⟩ ?_
  refine ⟨⟨rfl, start_locals_prefix hlocals args, length_start_locals _ args, ?_⟩,
    hpos.symm, hin, rfl⟩
  intro n hn
  rw [hmachine] at hn
  cases hn

/-- **A machine does what its function did.** -/
theorem same (hpos : c.pos 0 = 0) (hin : e.graph.blockNumber 0 ∈ c.included)
    (hmachine : c.machine = none) (hlocals : e.function.maxLocals ≤ c.body.func.maxLocals)
    {args : List Value}
    (hc : Always (w.move p) (w.Conforms p) (.start ⟨e.function, l.body⟩ args state)) :
    Same (w.move p) (w.move p') (.start ⟨e.function, l.body⟩ args state)
      (.start c.body args state) :=
  (simulates_of_matched fun h h' => M.matched h h').same
    ⟨Matches.pairs M (M.matches_start hpos hin hmachine hlocals args) state, hc⟩

end Emission.Machinery

end Resumable
