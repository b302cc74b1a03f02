import Resumable.Proofs.Exec.Natives

/-!
# No resumption is lost or doubled

A disciplined run keeps the books of its machines. So each parcel that a machine was suspended with is
delivered once at most, after the future that it waits for was settled, and when no callback is running
it has been delivered if that future is settled. A machine whose promised future is pending has exactly
one registration then, and the promised future is settled once, with what the last activation led to.
The exception are machines that are stranded: nobody waits for anything on their behalf, and what they
promised stays pending.
-/

namespace Resumable

open List Store Thread

/-! ## Threads with balanced books -/

/-- The callbacks that a context will run. -/
def Context.queue : Context → List (Callback × Outcome)
  | .deliver rest o => rest.map (·, o)
  | _ => []

/-- The machine that waits in a context. -/
def Context.resumed? : Context → Option Nat
  | .resumed m => some m
  | _ => none

/-- The machines with an activation under way that has not suspended. -/
def unsuspended (us : List Underway) : List Nat := (us.filter (!·.suspended)).map (·.machine)

/-- The books are right for what waits in a thread, if `hand` is to be run first. -/
def Balanced (es : List Milestone) (hand : List (Callback × Outcome)) (contexts : List Context)
    (s : Store) : Prop :=
  ∃ us, underway es = some us ∧ us.map (·.machine) = contexts.filterMap Context.resumed? ∧
    Books es (hand ++ contexts.flatMap Context.queue) s (unsuspended us)

/-- A property of what waits and of the store, if the computation is not broken. -/
def Progress.Holds (P : List Context → Store → Prop) : Progress → Prop
  | .going t => P t.contexts t.store
  | .finished _ s => P [] s
  | .broken _ _ => True

section

variable {p : Program} {es : List Milestone} {hand : List (Callback × Outcome)}
  {contexts : List Context} {s s' : Store} {m f : Nat} {c : Callback} {o : Outcome} {d : Parcel}
  {r : Except Error Value} {P : List Context → Store → Prop} {j : Job}

theorem Disciplined.of_append {es' : List Milestone} (h : Disciplined (es ++ es')) :
    Disciplined es := by
  unfold Disciplined underway at *
  rw [foldlM_append] at h
  cases h' : foldlM Milestone.goOn [] es with
  | none =>
    rw [h'] at h
    cases h
  | some us => rfl

theorem Disciplined.of_cons {e : Milestone} {es' : List Milestone} (h : Disciplined (es ++ e :: es')) :
    Disciplined (es ++ [e]) := by
  rw [← singleton_append, ← append_assoc] at h
  exact h.of_append

/-- A machine that is suspended again has the innermost activation. -/
theorem Disciplined.innermost {us : List Underway} (h : Disciplined (es ++ [.suspended m false d]))
    (hus : underway es = some us) : ∃ us', us = ⟨m, false⟩ :: us' := by
  rw [Disciplined, underway_append, hus] at h
  rcases us with _ | ⟨⟨m', b⟩, us⟩
  · cases h
  · cases b with
    | true => cases h
    | false =>
      by_cases hm : m' = m
      · rw [hm]
        exact ⟨us, rfl⟩
      · simp [Milestone.goOn, hm] at h

theorem Balanced.grow (h : Balanced es hand contexts s) (hs : s.Grows s') :
    Balanced es hand contexts s' := by
  obtain ⟨us, hus, hcontexts, hb⟩ := h
  exact ⟨us, hus, hcontexts, hb.grow hs⟩

theorem Balanced.drop (h : Balanced es [(c, o)] contexts s) (hc : c.machine? = none) :
    Balanced es [] contexts s := by
  obtain ⟨us, hus, hcontexts, hb⟩ := h
  exact ⟨us, hus, hcontexts, hb.drop rfl hc⟩

/-! ## Calls -/

theorem Thread.holds_enter {b : Body} {args : List Value} {depth : Nat} {patience : Patience}
    (h : P contexts s) : (enter p b args depth patience contexts s).Holds P := by
  unfold enter
  split <;> exact h

theorem Thread.holds_call {name : Text} {args : List Value} {patience : Patience}
    (h : P contexts s) : (call p name args patience contexts s).Holds P := by
  unfold call
  split
  · exact h
  · split
    · exact h
    · exact holds_enter h

/-! ## Callbacks -/

theorem Store.promiser?_eq_none : s.promiser? f = none ↔ f ∉ s.machines.map (·.result) := by
  rw [promiser?, findIdx?_eq_none_iff, mem_map]
  simp

theorem Thread.settle_of_pending (h : s.outcome? f = none) :
    settle f o contexts s =
      idle (.deliver (s.settle f o).1 o :: contexts) (s.settle f o).2 := by
  rw [settle, isDone, h]
  rfl

/-- A settled future hands its callbacks to the thread. -/
theorem Thread.holds_settle (h : Balanced es [] contexts s)
    (hd : Disciplined (es ++ intruding s f)) :
    (settle f o contexts s).Holds (Balanced (es ++ intruding s f) []) := by
  obtain ⟨us, hus, hcontexts, hb⟩ := h
  unfold intruding at hd ⊢
  by_cases hdone : s.isDone f
  · rw [settle, if_pos hdone, if_pos hdone, append_nil]
    exact ⟨us, hus, hcontexts, hb⟩
  have hpending : s.outcome? f = none := Option.not_isSome_iff_eq_none.mp hdone
  rw [if_neg hdone] at hd ⊢
  rw [settle_of_pending hpending]
  cases hm : s.promiser? f with
  | some m =>
    rw [hm] at hd
    unfold Disciplined at hd
    rw [show es ++ ((some m).map Milestone.intruded).toList = es ++ [.intruded m] from rfl,
      underway_append, hus] at hd
    cases us <;> cases hd
  | none =>
    rw [Option.map_none, Option.toList_none, append_nil]
    refine ⟨us, hus, hcontexts, ?_⟩
    show Books es ((s.settle f o).1.map (·, o) ++ _) _ _
    by_cases hf : f < s.futures.length
    · exact hb.settle hf hpending (promiser?_eq_none.mp hm)
    · rw [settle_of_le (Nat.le_of_not_lt hf)]
      exact hb

/-- A machine settles what it promised. -/
theorem Thread.holds_settleResult (h : Balanced es [(.link m, o)] contexts s) :
    (settleResult m o contexts s).Holds (Balanced (es ++ [.settled m o]) []) := by
  obtain ⟨us, hus, hcontexts, hb⟩ := h
  unfold settleResult
  split
  · trivial
  next x hx =>
    obtain ⟨hpending, hb'⟩ := hb.fulfil (f := x.result) (by rw [hx]; rfl)
    rw [settle_of_pending hpending]
    refine ⟨us, ?_, hcontexts, hb'⟩
    rw [underway_append, hus]
    cases us <;> rfl

/-- **A callback does to machines what it is for.** -/
theorem Thread.holds_fire (h : Balanced es [(c, o)] contexts s) :
    (fire p o contexts s c).Holds (Balanced (es ++ firing o c) []) := by
  cases c with
  | resume m index state awaited =>
    unfold fire
    dsimp only
    split
    · trivial
    next x hx =>
      refine holds_call (Balanced.grow (s := s) ?_ ?_)
      · obtain ⟨us, hus, hcontexts, hb⟩ := h
        refine ⟨⟨m, false⟩ :: us, ?_, congrArg (m :: ·) hcontexts,
          Books.resume (d := ⟨index, state, awaited⟩) hb⟩
        rw [show firing o (.resume m index state awaited) = [_] from rfl, underway_append, hus]
        cases us <;> rfl
      · refine (s.grows_countResume m).trans ?_
        split
        · exact ⟨⟨[], by simp [log]⟩, rfl⟩
        · exact .refl _
  | link m => exact holds_settleResult h
  | host act =>
    rw [show firing o (.host act) = [] from rfl, append_nil]
    exact h.drop rfl

/-- No history goes on after a machine waits for nothing. -/
theorem not_disciplined_lost : ¬ Disciplined (es ++ [.lost m]) := by
  unfold Disciplined
  rw [underway_append]
  cases underway es with
  | none => simp
  | some us =>
    rcases us with _ | ⟨⟨m', b⟩, us⟩
    · simp [Milestone.goOn]
    · cases b <;> simp [Milestone.goOn]

/-- A callback is registered, or run at once. -/
theorem Thread.holds_register
    (hpending : s.outcome? f = none → f < s.futures.length ∨ c.machine? = none →
      Balanced es [] contexts (s.register f c))
    (hdone : ∀ o, s.outcome? f = some o → Balanced es [(c, o)] contexts s)
    (hd : Disciplined (es ++ registering s f c)) :
    (register p f c contexts s).Holds (Balanced (es ++ registering s f c) []) := by
  unfold register
  unfold registering at hd ⊢
  cases ho : s.outcome? f with
  | some o => exact holds_fire (hdone o ho)
  | none =>
    rw [ho] at hd
    dsimp only at hd ⊢
    by_cases hf : f < s.futures.length
    · rw [if_pos hf, append_nil]
      exact hpending ho (.inl hf)
    · rw [if_neg hf] at hd ⊢
      cases hm : c.machine? with
      | none =>
        rw [Option.map_none, Option.toList_none, append_nil]
        exact hpending ho (.inr hm)
      | some m =>
        rw [hm] at hd
        exact absurd hd not_disciplined_lost

theorem Thread.registering_host {act : Outcome → Host} : registering s f (.host act) = [] := by
  unfold registering
  split
  · rfl
  · split <;> rfl

/-- Code of the host is registered. -/
theorem Thread.holds_register_host {act : Outcome → Host} (h : Balanced es [] contexts s) :
    (register p f (.host act) contexts s).Holds (Balanced es []) := by
  obtain ⟨us, hus, hcontexts, hb⟩ := h
  have hregister : (register p f (.host act) contexts s).Holds
      (Balanced (es ++ registering s f (.host act)) []) := by
    refine holds_register (fun _ _ => ?_) (fun o _ => ?_) ?_
    · exact ⟨us, hus, hcontexts, hb.observe rfl⟩
    · exact ⟨us, hus, hcontexts, hb.enqueue rfl⟩
    · rw [registering_host, append_nil, Disciplined, hus]
      rfl
  rwa [registering_host, append_nil] at hregister

/-- **The end of an activation** leads to the position that its result asks for. -/
theorem Thread.holds_finishResume (h : Balanced es [] (.resumed m :: contexts) s)
    (hd : Disciplined (es ++ finishing s m r)) :
    (finishResume p m contexts s r).Holds (Balanced (es ++ finishing s m r) []) := by
  obtain ⟨us, hus, hcontexts, hb⟩ := h
  -- The innermost activation is the one that ends.
  obtain ⟨b, us, rfl⟩ : ∃ b us', us = ⟨m, b⟩ :: us' := by
    cases us with
    | nil => cases hcontexts
    | cons u us =>
      obtain ⟨rfl, -⟩ := cons.inj hcontexts
      exact ⟨u.suspended, us, rfl⟩
  replace hcontexts := (cons.inj hcontexts).2
  -- If it did not suspend, it is the one that the books know about.
  have hconcluded {r : Except Error Value} {es' : List Milestone}
      (hd : Disciplined (es ++ .concluded m r :: es')) :
      underway (es ++ [.concluded m r]) = some us ∧
        Books es (contexts.flatMap Context.queue) s (m :: unsuspended us) := by
    have hd := hd.of_cons
    rw [Disciplined, underway_append, hus] at hd
    cases b with
    | true => cases hd
    | false => exact ⟨by rw [underway_append, hus]; rfl, hb⟩
  have hsettled {r : Except Error Value} {o : Outcome} (hr : Leads s r o)
      (hd : Disciplined (es ++ .concluded m r :: [.settled m o])) :
      (settleResult m o contexts s).Holds
        (Balanced (es ++ .concluded m r :: [.settled m o]) []) := by
    obtain ⟨hus', hb'⟩ := hconcluded hd
    rw [← singleton_append, ← append_assoc]
    exact holds_settleResult ⟨us, hus', hcontexts, hb'.conclude hr⟩
  cases r with
  | error e => exact hsettled rfl hd
  | ok v =>
    cases v with
    | future f =>
      unfold finishResume
      unfold finishing at hd ⊢
      dsimp only at hd ⊢
      by_cases hown : (s.machines[m]?).map (·.result) = some f
      · rw [if_pos hown] at hd ⊢
        rw [if_pos hown]
        have hus' : underway (es ++ [.kept m]) = some us := by
          rw [underway_append, hus]
          rfl
        -- Without a suspension, this is where the machine is lost.
        cases b with
        | false => exact ⟨us, hus', hcontexts, Books.strand hb hus⟩
        | true => exact ⟨us, hus', hcontexts, hb.keep hus⟩
      · rw [if_neg hown] at hd ⊢
        rw [if_neg hown]
        obtain ⟨hus', hb'⟩ := hconcluded hd
        rw [← singleton_append, ← append_assoc] at hd ⊢
        refine holds_register (fun ho hf => ?_) (fun o ho => ?_) hd
        · have hf : f < s.futures.length := hf.resolve_right (by simp [Callback.machine?])
          exact ⟨us, hus', hcontexts, hb'.link hf ho⟩
        · exact ⟨us, hus', hcontexts, hb'.conclude ho⟩
    | _ => exact hsettled rfl hd

/-! ## Natives -/

/-- Code of the host does to machines what it does to futures that they have promised. -/
theorem Thread.holds_act {code : Host} (h : Balanced es [] contexts s)
    (hd : Disciplined (es ++ acting s code)) :
    (act p contexts s code).Holds (Balanced (es ++ acting s code) []) := by
  have hnone {P : Progress} (hP : P.Holds (Balanced es [])) : P.Holds (Balanced (es ++ []) []) := by
    rwa [append_nil]
  -- Code that waits for something does not count for the books.
  have hwaits (next : Except Error Value → Host) : Balanced es [] (.host next :: contexts) s := h
  cases code with
  | settle f o next => exact holds_settle (hwaits _) hd
  | stop f => trivial
  | done r | named name next | outcome f next => exact hnone h
  | note e next => exact hnone (h.grow ⟨⟨[], by simp [Store.note]⟩, rfl⟩)
  | make cls outcome next => exact hnone (h.grow ⟨⟨[{ cls, outcome }], rfl, by simp⟩, rfl⟩)
  | register f act next => exact hnone (holds_register_host (hwaits _))
  | call name args patience next => exact hnone (holds_call (hwaits next))

/-- A native that leaves machines alone has replied. -/
theorem Thread.holds_reply {count : Nat} {a : Reply} (h : Balanced es [] contexts s) (ha : a.Fair) :
    (reply p contexts s a).Holds (Balanced (es ++ replying count s a) []) := by
  cases a with
  | value v =>
    rw [show replying count s (.value v) = [] from rfl, append_nil]
    exact h
  | act code =>
    rw [show replying count s (.act code) = [] from rfl, append_nil]
    exact h
  | register f c v =>
    cases c with
    | host act =>
      rw [show replying count s (.register f (.host act) v) = [] from registering_host, append_nil]
      exact holds_register_host h
    | _ => cases ha

/-- A machine with an activation is suspended. -/
theorem Thread.holds_suspend {us : List Underway} {fresh : Bool}
    (hus : underway (es ++ [.suspended m fresh d]) = some us)
    (hcontexts : us.map (·.machine) = contexts.filterMap Context.resumed?)
    (hb : Books es (contexts.flatMap Context.queue) s (m :: unsuspended us))
    (hd : Disciplined
      (es ++ .suspended m fresh d :: registering s d.awaited (d.callback m))) :
    (register p d.awaited (d.callback m) contexts s).Holds
      (Balanced (es ++ .suspended m fresh d :: registering s d.awaited (d.callback m)) []) := by
  rw [← singleton_append, ← append_assoc] at hd ⊢
  refine holds_register (fun ho hf => ?_) (fun o ho => ?_) hd
  · have hf := hf.resolve_right (by simp [Parcel.callback, Callback.machine?])
    exact ⟨us, hus, hcontexts, hb.suspend hf ho⟩
  · exact ⟨us, hus, hcontexts, hb.suspend_done ho⟩

/-- **A suspension moves a machine** from its activation to what it waits for. -/
theorem Thread.holds_reply_suspend {a : Reply}
    (hout : Native.Suspends s (.ok a, s')) (h : Balanced es [] contexts s)
    (hd : Disciplined (es ++ replying s.machines.length s' a)) :
    (reply p contexts s' a).Holds
      (Balanced (es ++ replying s.machines.length s' a) []) := by
  obtain ⟨us, hus, hcontexts, hb⟩ := h
  cases hout with
  | known m d v hm =>
    -- The machine is suspended by its own activation.
    have hd' : Disciplined (es ++ .suspended m false d ::
        registering s d.awaited (d.callback m)) := by
      rw [← show decide (s.machines.length ≤ m) = false from decide_eq_false (by omega)]
      exact hd
    obtain ⟨us, rfl⟩ := hd'.of_cons.innermost hus
    have hus' : underway (es ++ [.suspended m false d]) = some (⟨m, true⟩ :: us) := by
      rw [underway_append, hus]
      simp [Milestone.goOn]
    show Progress.Holds (Balanced (es ++ .suspended m (decide _) d :: _) []) _
    rw [show decide (s.machines.length ≤ m) = false from decide_eq_false (by omega)]
    have hcontexts' : (⟨m, true⟩ :: us).map Underway.machine =
        (Context.answer v :: contexts).filterMap Context.resumed? := hcontexts
    exact holds_suspend hus' hcontexts' hb hd'
  | fresh d v continuation cls =>
    have hus' : underway (es ++ [.suspended s.machines.length true d]) = some us := by
      rw [underway_append, hus]
      rcases us with _ | ⟨⟨m', b⟩, us⟩
      · rfl
      · cases b <;> rfl
    have hb' := hb.newMachine continuation cls
    have hfresh : decide (s.machines.length ≤ s.machines.length) = true := by simp
    have hd' : Disciplined (es ++ .suspended s.machines.length true d ::
        registering (s.newMachine continuation cls).2 d.awaited
          (d.callback s.machines.length)) := by
      rw [← hfresh]
      exact hd
    show Progress.Holds (Balanced (es ++ .suspended s.machines.length (decide _) d :: _) []) _
    rw [hfresh]
    have hcontexts' : us.map Underway.machine =
        (Context.answer v :: contexts).filterMap Context.resumed? := hcontexts
    exact holds_suspend hus' hcontexts' hb' hd'

/-! ## Steps -/

/-- What a call can come to: it has nothing to do with machines, or a native replies that leaves
machines alone or suspends one. -/
theorem Thread.invoke_cases (hp : p.FairHost) (j : Job) (symbol : UInt32) (args : List Value)
    (contexts : List Context) (s : Store) :
    (invoking p j symbol args s = [] ∧ ∀ P : List Context → Store → Prop,
      (∀ s', s.Grows s' → P contexts s') → (invoke p j symbol args contexts s).Holds P) ∨
    ∃ a s', invoke p j symbol args contexts s = reply p contexts s' a ∧
      invoking p j symbol args s = replying s.machines.length s' a ∧
      (s.Grows s' ∧ a.Fair ∨ Native.Suspends s (.ok a, s')) := by
  unfold invoke invoking
  cases item? p.unit.symbols symbol with
  | none => exact .inl ⟨rfl, fun P hP => trivial⟩
  | some sym =>
    dsimp only
    by_cases howner : sym.owner.isEmpty
    · rw [if_pos howner, if_pos howner]
      refine .inl ⟨rfl, fun P hP => ?_⟩
      split
      · exact holds_enter (hP s (.refl s))
      · exact hP s (.refl s)
    rw [if_neg howner, if_neg howner]
    cases hnative : p.native? sym.key with
    | none => exact .inl ⟨rfl, fun P hP => hP s (.refl s)⟩
    | some native =>
      dsimp only
      have hkind : native = Native.suspend ∨ ∀ c, NativeM.Fair Reply.Fair (native c) := by
        rcases Option.or_eq_some_iff.mp hnative with hhost | ⟨-, hbuiltin⟩
        · exact .inr (hp _ _ hhost)
        · exact Native.fair_builtin hbuiltin
      have hout : Native.Suspends s (ExceptT.run (native (invocation p j args)) s) ∨
          s.Grows (ExceptT.run (native (invocation p j args)) s).2 ∧
            ∀ a, (ExceptT.run (native (invocation p j args)) s).1 = .ok a → a.Fair := by
        rcases hkind with rfl | hfair
        · exact .inl (Native.suspends_suspend _ s)
        · exact .inr (hfair _ s)
      generalize ExceptT.run (native (invocation p j args)) s = out at hout ⊢
      rcases out with ⟨f | a, s'⟩
      · have hgrows : s.Grows s' := by
          rcases hout with hout | ⟨hgrows, -⟩
          · cases hout
            exact .refl s
          · exact hgrows
        refine .inl ⟨rfl, fun P hP => ?_⟩
        cases f with
        | error e => exact hP s' hgrows
        | _ => trivial
      · refine .inr ⟨a, s', rfl, rfl, ?_⟩
        rcases hout with hout | ⟨hgrows, hfair⟩
        · exact .inr hout
        · exact .inl ⟨hgrows, hfair a rfl⟩

/-- A call does to machines what its native does. -/
theorem Thread.holds_invoke (hp : p.FairHost) {symbol : UInt32} {args : List Value}
    (h : Balanced es [] contexts s) (hd : Disciplined (es ++ invoking p j symbol args s)) :
    (invoke p j symbol args contexts s).Holds
      (Balanced (es ++ invoking p j symbol args s) []) := by
  rcases invoke_cases hp j symbol args contexts s with
    ⟨hnone, hholds⟩ | ⟨a, s', hinvoke, hsome, ⟨hgrows, hfair⟩ | hsuspends⟩
  · rw [hnone, append_nil]
    exact hholds _ fun s' hs' => h.grow hs'
  · rw [hsome, hinvoke]
    exact holds_reply (h.grow hgrows) hfair
  · rw [hsome] at hd ⊢
    rw [hinvoke]
    exact holds_reply_suspend hsuspends h hd

/-- What a step of an activation asks for, if it is no call. -/
theorem Thread.holds_follow {step : Step} (h : P contexts s)
    (hstep : ∀ symbol args a, step ≠ .call symbol args a) :
    (follow p j contexts s step).Holds P := by
  cases step with
  | call symbol args a => exact absurd rfl (hstep symbol args a)
  | stopped f => cases f <;> first | exact h | trivial
  | _ => exact h

theorem Activation.raise_ne_call {w : Surroundings} {a : Activation} {x : Exception}
    (symbol : UInt32) (args : List Value) (b : Activation) :
    a.raise w x ≠ .call symbol args b := by
  unfold raise
  split <;> simp

theorem Activation.receive_ne_call {w : Surroundings} {a : Activation} (symbol : UInt32)
    (args : List Value) (b : Activation) : a.receive w r ≠ .call symbol args b := by
  unfold receive
  split
  · simp
  · split
    · exact raise_ne_call symbol args b
    · simp

/-- **A step keeps the books balanced.** -/
theorem Thread.holds_step (hp : p.FairHost) {t : Thread} (h : Balanced es [] t.contexts t.store)
    (hd : Disciplined (es ++ t.milestones p)) :
    (t.step p).Holds (Balanced (es ++ t.milestones p) []) := by
  obtain ⟨control, contexts, s⟩ := t
  unfold step
  unfold milestones at hd ⊢
  dsimp only at h hd ⊢
  cases control with
  | run j =>
    dsimp only at hd ⊢
    cases hstep : j.activation.step (p.surroundings s) with
    | call symbol args a =>
      rw [hstep] at hd
      have hcaller : Balanced es [] (.caller { j with activation := a } :: contexts) s := h
      exact holds_invoke hp hcaller hd
    | _ =>
      dsimp only
      rw [append_nil]
      exact holds_follow h (by simp)
  | give r =>
    dsimp only at hd ⊢
    rcases contexts with _ | ⟨k, rest⟩
    · dsimp only
      rw [append_nil]
      exact h
    cases k with
    | caller j =>
      dsimp only
      rw [append_nil]
      exact holds_follow h (Activation.receive_ne_call)
    | deliver cs o =>
      cases cs with
      | nil =>
        dsimp only
        rw [append_nil]
        exact h
      | cons c cs =>
        have hhand : Balanced es [(c, o)] (.deliver cs o :: rest) s := h
        exact holds_fire hhand
    | resumed m => exact holds_finishResume h hd
    | answer v | host next =>
      dsimp only
      rw [append_nil]
      exact h
  | host code => exact holds_act h hd

/-- **The books of a disciplined run are balanced.** -/
theorem Run.balanced (hp : p.FairHost) {P : Progress} (h : Run p es P) (hd : Disciplined es) :
    P.Holds (Balanced es []) := by
  induction h with
  | start =>
    refine ⟨[], rfl, rfl, fun m => ⟨.absent, ?_⟩, by simp [deliveries], nodup_nil,
      by simp, .nil⟩
    constructor <;> simp [registrations, Position.registrations, queued, Position.queue,
      unsuspended, Position.running, tale, suspensions, deliveries, Position.parcels, conclusions,
      Position.conclusions, settlements, Position.settlements, Stranded, Position.tells,
      Position.outcome?, Position.Holds]
  | grow h hs ih => exact Balanced.grow (ih hd) hs
  | act h code ih => exact ih hd
  | step h ih => exact holds_step hp (ih hd.of_append) hd

/-! ## Deliveries are calls -/

end

/-- Some steps, with the milestones on the way. -/
def Progress.advance (p : Program) :
    (steps : Nat) → List Milestone → Progress → List Milestone × Progress
  | steps + 1, es, .going t => advance p steps (es ++ t.milestones p) (t.step p)
  | _, es, P => (es, P)

theorem Run.advance {p : Program} {es es' : List Milestone} {P P' : Progress} (h : Run p es P)
    (steps : Nat) (hsteps : P.advance p steps es = (es', P')) : Run p es' P' := by
  induction steps generalizing es P with
  | zero =>
    cases hsteps
    exact h
  | succ n ih =>
    cases P with
    | going t => exact ih h.step hsteps
    | finished r s =>
      cases hsteps
      exact h
    | broken f s =>
      cases hsteps
      exact h

end Resumable
