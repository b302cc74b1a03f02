import Mathlib.Data.List.Basic
import Resumable.Exec.Activation
import Resumable.Flow.Graph

/-!
# Instructions as operations on what they take

Apart from reading and writing a local, an instruction works on the values that it takes from the
stack and leaves everything below them alone. `Instr.operate` is this part as a function, and
`Activation.apply_run` says that running an instruction is operating on the topmost values. What
comes after an instruction and how the stack changes can then be told without any activation.
-/

namespace Resumable

open List

/-- What an instruction makes of the values that it takes. -/
inductive Operation
  /-- Puts values on the stack, the topmost first. -/
  | turn (t : Turn) (outs : List Value)
  /-- Stops with a report about the instruction. -/
  | fault (problem : Problem) (detail : Text)
  | failure (f : Failure)

namespace Operation

/-- What an operation means to an activation, with `rest` below the values that were taken. -/
def on (a : Activation) (rest : List Value) : Operation → Except Failure (Turn × Activation)
  | turn t outs => .ok (t, { a with stack := outs ++ rest })
  | fault problem detail => .error (a.fault problem detail)
  | failure f => .error f

/-- The step of an activation whose instruction does an operation. -/
def step (w : Surroundings) (a : Activation) (rest : List Value) : Operation → Step
  | turn t outs => Activation.turn w { a with stack := outs ++ rest } t
  | fault problem detail => .stopped (a.fault problem detail)
  | failure f => .stopped f

/-- Goes on with the text of a value. -/
def withText (w : Surroundings) (v : Value) (k : Text → Operation) : Operation :=
  match w.format v with
  | .error f => failure f
  | .ok text => k text

/-- Goes on with the integer that a value is. -/
def withInt (w : Surroundings) (v : Value) (k : Int64 → Operation) : Operation :=
  match v with
  | .int n => k n
  | v => withText w v fun text => fault .typeMismatch ("expected I, got " ++ text)

/-- Goes on with a member of a table. -/
def withEntry {α : Type} (table : List α) (i : UInt32) (k : α → Operation) : Operation :=
  match item? table i with
  | none => failure .outOfRange
  | some x => k x

/-- Goes on with the next instruction. -/
def next (outs : List Value) : Operation := turn .next outs

end Operation

open Operation in
/-- What an instruction makes of the values that it takes, the topmost first. -/
def Instr.operate (w : Surroundings) : Instr → List Value → Operation
  | .nop, [] => next []
  | .iconst n, [] => next [.int n]
  | .sconst i, [] => withEntry w.unit.strings i fun s => next [.str s]
  | .null, [] => next [.null]
  | .pop, [_] => next []
  | .dup, [v] => next [v, v]
  | .swap, [b, a] => next [a, b]
  | .arith op, [b, a] => withInt w b fun b => withInt w a fun a =>
    next [.int (Activation.arith op a b)]
  | .goto t, [] => turn (.jump t) []
  | .branch .zero t, [v] => withInt w v fun n => turn (Activation.jumpIf (n == 0) t) []
  | .branch .nonzero t, [v] => withInt w v fun n => turn (Activation.jumpIf (n != 0) t) []
  | .branch .less t, [b, a] => withInt w b fun b => withInt w a fun a =>
    turn (Activation.jumpIf (a < b) t) []
  | .branch .null t, [v] => turn (Activation.jumpIf v.isNull t) []
  | .branch .nonnull t, [v] => turn (Activation.jumpIf (!v.isNull) t) []
  | .switch low targets otherwise, [v] => withInt w v fun n =>
    turn (.jump (Activation.switchTarget low targets otherwise n)) []
  | .invoke i, args => turn (.call i args.reverse) []
  | .checkcast i, [v] => withEntry w.unit.strings i fun cls =>
    if v.isNull || Activation.isInstance w v cls then next [v]
    else turn (.raise (.ofText ("cannot cast " ++ w.classOf v ++ " to " ++ cls))) []
  | .instanceof i, [v] => withEntry w.unit.strings i fun cls =>
    next [.ofBool (Activation.isInstance w v cls)]
  | .raise, [.exception e] => turn (.raise e) []
  | .raise, [v] => withText w v fun text =>
    turn (.raise (.ofText ("throw of non-error value " ++ text))) []
  | .ret, [] => turn (.leave .null) []
  | .retval, [v] => turn (.leave v) []
  | .newrec i, fields => next [.record i fields.reverse]
  | .recget i f, [.record layout fields] =>
    if layout = i then withEntry fields f fun v => next [v]
    else fault .typeMismatch "recget on a record of another layout"
  | .recget _ _, [.noRecord] => failure .outOfRange
  | .recget _ _, [_] => fault .typeMismatch "recget on a record of another layout"
  | _, _ => failure .outOfRange

namespace Activation

variable {w : Surroundings} {mid rest : List Value} {v : Value} {n : UInt32}

theorem run_format (a : Activation) {k : Text → Work Turn} {k' : Text → Operation}
    (hk : ∀ text, (k text).run { a with stack := mid } = (k' text).on a rest) :
    (StateT.lift (w.format v) >>= k).run { a with stack := mid } =
      (Operation.withText w v k').on a rest := by
  unfold Operation.withText
  simp only [StateT.run_bind, StateT.run_lift]
  cases w.format v with
  | error f => rfl
  | ok text => exact hk text

theorem run_popInt (a : Activation) {k : Int64 → Work Turn} {k' : Int64 → Operation}
    (hk : ∀ n, (k n).run { a with stack := mid } = (k' n).on a rest) :
    (popInt w >>= k).run { a with stack := v :: mid } =
      (Operation.withInt w v k').on a rest := by
  have hother : ∀ v : Value,
      ((StateT.lift (w.format v) >>= fun text =>
        fail .typeMismatch ("expected I, got " ++ text)) >>= k).run { a with stack := mid } =
      (Operation.withText w v fun text =>
        .fault .typeMismatch ("expected I, got " ++ text)).on a rest := by
    intro v
    rw [bind_assoc]
    exact run_format a fun text => rfl
  cases v with
  | int n => exact hk n
  | _ => exact hother _

theorem run_entry (a : Activation) {α : Type} {table : List α} {k : α → Work Turn}
    {k' : α → Operation}
    (hk : ∀ x, item? table n = some x → (k x).run { a with stack := mid } = (k' x).on a rest) :
    (entry table n >>= k).run { a with stack := mid } =
      (Operation.withEntry table n k').on a rest := by
  unfold entry Operation.withEntry
  simp only [StateT.run_bind, StateT.run_lift]
  cases h : item? table n with
  | none => rfl
  | some x => exact hk x h

theorem run_popMany (a : Activation) {ts : List Value} {k : List Value → Work Turn} :
    (popMany ts.length >>= k).run { a with stack := ts ++ rest } =
      (k ts.reverse).run { a with stack := rest } := by
  have hrun : (popMany ts.length).run { a with stack := ts ++ rest } =
      .ok (ts.reverse, { a with stack := rest }) := by
    have hlen : ¬(ts ++ rest).length < ts.length := by
      rw [length_append]
      omega
    unfold popMany
    simp only [StateT.run_bind, StateT.run_get, pure_bind, hlen, if_false, StateT.run_modify,
      StateT.run_pure, drop_left, take_left]
    rfl
  rw [StateT.run_bind, hrun]
  rfl

/-- **Running an instruction is operating on the values that it takes.** -/
theorem apply_run (a : Activation) {i : Instr} {pops pushes : Nat} {ts : List Value}
    (hi : i.slot? = none) (he : i.stackEffect w.unit = some (pops, pushes))
    (ht : ts.length = pops) :
    (apply w i).run { a with stack := ts ++ rest } = (i.operate w ts).on a rest := by
  have hnone : ts.length = 0 → ts = [] := eq_nil_of_length_eq_zero
  have hone : ts.length = 1 → ∃ v, ts = [v] := length_eq_one_iff.mp
  have htwo : ts.length = 2 → ∃ b a, ts = [b, a] := length_eq_two.mp
  cases i with
  | load n | store n => cases hi
  | nop | iconst n | null | goto t | ret => cases he; obtain rfl := hnone ht; rfl
  | sconst n => cases he; obtain rfl := hnone ht; exact run_entry a fun s _ => rfl
  | pop | dup | retval => cases he; obtain ⟨v, rfl⟩ := hone ht; rfl
  | swap => cases he; obtain ⟨b, c, rfl⟩ := htwo ht; rfl
  | arith op =>
    cases he
    obtain ⟨b, c, rfl⟩ := htwo ht
    exact run_popInt a fun n => run_popInt a fun m => rfl
  | branch test t =>
    cases test with
    | zero | nonzero => cases he; obtain ⟨v, rfl⟩ := hone ht; exact run_popInt a fun n => rfl
    | less =>
      cases he
      obtain ⟨b, c, rfl⟩ := htwo ht
      exact run_popInt a fun n => run_popInt a fun m => rfl
    | null | nonnull => cases he; obtain ⟨v, rfl⟩ := hone ht; rfl
  | switch low targets otherwise =>
    cases he
    obtain ⟨v, rfl⟩ := hone ht
    exact run_popInt a fun n => rfl
  | checkcast n =>
    cases he
    obtain ⟨v, rfl⟩ := hone ht
    refine run_entry a fun cls _ => ?_
    show (ite _ _ _ : Work Turn).run { a with stack := rest } = _
    split <;> rfl
  | instanceof n =>
    cases he
    obtain ⟨v, rfl⟩ := hone ht
    exact run_entry a fun cls _ => rfl
  | raise =>
    cases he
    obtain ⟨v, rfl⟩ := hone ht
    have hother : ∀ v : Value,
        (StateT.lift (w.format v) >>= fun text =>
          pure (.raise (.ofText ("throw of non-error value " ++ text))) : Work Turn).run
            { a with stack := rest } =
        (Operation.withText w v fun text =>
          .turn (.raise (.ofText ("throw of non-error value " ++ text))) []).on a rest :=
      fun v => run_format a fun text => rfl
    cases v with
    | exception e => rfl
    | _ => exact hother _
  | invoke n =>
    obtain ⟨s, hs, he⟩ := Option.map_eq_some_iff.mp he
    cases he
    have hop : (Instr.invoke n).operate w ts =
        .withEntry w.unit.symbols n fun _ => .turn (.call n ts.reverse) [] := by
      rw [Operation.withEntry, hs]
      rfl
    rw [hop]
    refine run_entry a fun s' hs' => ?_
    cases hs.symm.trans hs'
    rw [← ht]
    exact run_popMany a
  | newrec n =>
    obtain ⟨l, hl, he⟩ := Option.map_eq_some_iff.mp he
    cases he
    have hop : (Instr.newrec n).operate w ts =
        .withEntry w.unit.records n fun _ => .next [.record n ts.reverse] := by
      rw [Operation.withEntry, hl]
      rfl
    rw [hop]
    refine run_entry a fun l' hl' => ?_
    cases hl.symm.trans hl'
    rw [← ht]
    exact run_popMany a
  | recget n f =>
    cases he
    obtain ⟨v, rfl⟩ := hone ht
    cases v with
    | record layout fields =>
      show (ite _ _ _ : Work Turn).run { a with stack := rest } = (ite _ _ _ : Operation).on a rest
      split
      · exact run_entry a fun v _ => rfl
      · rfl
    | _ => rfl

theorem step_operate (a : Activation) {i : Instr} {pops pushes : Nat} {t : List Value}
    (hcode : a.body.code[a.pc]? = some i) (hi : i.slot? = none)
    (he : i.stackEffect w.unit = some (pops, pushes)) (ht : t.length = pops)
    (ha : a.stack = t ++ rest) : a.step w = (i.operate w t).step w a rest := by
  have hrun : (apply w i).run a = (i.operate w t).on a rest := by
    rw [← apply_run a hi he ht, ← ha]
  unfold step
  rw [hcode]
  dsimp only
  rw [hrun]
  cases i.operate w t <;> rfl

theorem step_load (a : Activation)
    (hcode : a.body.code[a.pc]? = some (.load n)) (hv : item? a.locals n = some v) :
    a.step w = .next { a with stack := v :: a.stack, pc := a.pc + 1 } := by
  have hrun : (apply w (.load n)).run a = .ok (.next, { a with stack := v :: a.stack }) := by
    show ((entry a.locals n >>= fun v => push v >>= fun _ => pure .next : Work Turn).run a) = _
    unfold entry
    simp only [StateT.run_bind, StateT.run_lift, hv]
    rfl
  unfold step
  rw [hcode]
  dsimp only
  rw [hrun]
  rfl

theorem step_store (a : Activation)
    (hcode : a.body.code[a.pc]? = some (.store n)) (ha : a.stack = v :: rest) :
    a.step w =
      .next { a with locals := a.locals.set n.toNat v, stack := rest, pc := a.pc + 1 } := by
  have hrun : (apply w (.store n)).run { a with stack := v :: rest } =
      .ok (.next, { a with locals := a.locals.set n.toNat v, stack := rest }) := rfl
  rw [← ha] at hrun
  unfold step
  rw [hcode]
  dsimp only
  rw [hrun]
  rfl

/-- What a call with a result type leaves on the stack. -/
def delivered (t : Ty) (v : Value) : List Value := if t = .void then [] else [v.received]

theorem receive_ok (a : Activation) {s : Symbol}
    (hcode : a.body.code[a.pc]? = some (.invoke n)) (hs : item? w.unit.symbols n = some s) :
    a.receive w (.ok v) =
      .next { a with stack := delivered s.result v ++ a.stack, pc := a.pc + 1 } := by
  have hawaited : a.awaitedType w.unit = s.result := by
    unfold awaitedType
    rw [hcode]
    dsimp only
    rw [hs]
    rfl
  unfold receive delivered
  dsimp only
  rw [hawaited]
  split <;> rfl

end Activation

/-! ## What comes after an operation -/

namespace Operation

variable {w : Surroundings} {t : Turn} {outs : List Value}

theorem withText_eq_turn {v : Value} {k : Text → Operation} :
    withText w v k = turn t outs ↔ ∃ text, w.format v = .ok text ∧ k text = turn t outs := by
  unfold withText
  cases w.format v <;> simp

theorem withInt_eq_turn {v : Value} {k : Int64 → Operation} :
    withInt w v k = turn t outs ↔ ∃ n, v = .int n ∧ k n = turn t outs := by
  cases v with
  | int n => simp [withInt]
  | _ => simp [withInt, withText_eq_turn]

theorem withEntry_eq_turn {α : Type} {table : List α} {n : UInt32} {k : α → Operation} :
    withEntry table n k = turn t outs ↔ ∃ x, item? table n = some x ∧ k x = turn t outs := by
  unfold withEntry
  cases item? table n <;> simp

end Operation

/-- Where an instruction that takes `ts` and puts `outs` on the stack can lead to. -/
def Instr.Leads (i : Instr) (pushes : Nat) (ts : List Value) : Turn → List Value → Prop
  | .next, outs => i.fallsThrough ∧ outs.length = pushes
  | .jump p, outs => p ∈ i.targets ∧ outs.length = pushes
  | .call n args, outs => i = .invoke n ∧ args = ts.reverse ∧ outs = []
  | .leave _, outs => outs = []
  | .raise _, outs => outs = []

theorem Activation.switchTarget_mem {low : Int32} {targets : List UInt32} {otherwise : UInt32}
    {n : Int64} : switchTarget low targets otherwise n ∈ targets ++ [otherwise] := by
  unfold switchTarget
  dsimp only
  split
  · simp
  · cases hk : targets[(n - low.toInt64).toNatClampNeg]? with
    | none => simp
    | some t => simp [mem_of_getElem? hk]

namespace Instr

variable {w : Surroundings} {i : Instr} {pops pushes : Nat} {t : Turn} {ts outs : List Value}

theorem leads_jumpIf {c : Bool} {p : UInt32} (hi : i.fallsThrough) (hp : i.targets = [p]) :
    i.Leads 0 ts (Activation.jumpIf c p) [] := by
  cases c with
  | true => exact ⟨by simp [hp], rfl⟩
  | false => exact ⟨hi, rfl⟩

open Operation in
/-- **Operations lead where the instruction says,** and change the height as it says. -/
theorem operate_leads (he : i.stackEffect w.unit = some (pops, pushes)) (ht : ts.length = pops)
    (h : i.operate w ts = .turn t outs) : i.Leads pushes ts t outs := by
  have hnone : ts.length = 0 → ts = [] := eq_nil_of_length_eq_zero
  have hone : ts.length = 1 → ∃ v, ts = [v] := length_eq_one_iff.mp
  have htwo : ts.length = 2 → ∃ b a, ts = [b, a] := length_eq_two.mp
  cases i with
  | load n => cases he; obtain rfl := hnone ht; cases h
  | store n => cases he; obtain ⟨v, rfl⟩ := hone ht; cases h
  | nop | iconst n | null => cases he; obtain rfl := hnone ht; cases h; exact ⟨rfl, rfl⟩
  | goto p => cases he; obtain rfl := hnone ht; cases h; exact ⟨mem_singleton.mpr rfl, rfl⟩
  | ret => cases he; obtain rfl := hnone ht; cases h; rfl
  | sconst n =>
    cases he
    obtain rfl := hnone ht
    obtain ⟨s, _, h⟩ := withEntry_eq_turn.mp h
    cases h
    exact ⟨rfl, rfl⟩
  | pop | dup => cases he; obtain ⟨v, rfl⟩ := hone ht; cases h; exact ⟨rfl, rfl⟩
  | retval => cases he; obtain ⟨v, rfl⟩ := hone ht; cases h; rfl
  | swap => cases he; obtain ⟨b, c, rfl⟩ := htwo ht; cases h; exact ⟨rfl, rfl⟩
  | arith op =>
    cases he
    obtain ⟨b, c, rfl⟩ := htwo ht
    obtain ⟨n, _, h⟩ := withInt_eq_turn.mp h
    obtain ⟨m, _, h⟩ := withInt_eq_turn.mp h
    cases h
    exact ⟨rfl, rfl⟩
  | branch test p =>
    cases test with
    | zero | nonzero =>
      cases he
      obtain ⟨v, rfl⟩ := hone ht
      obtain ⟨n, _, h⟩ := withInt_eq_turn.mp h
      cases h
      exact leads_jumpIf rfl rfl
    | less =>
      cases he
      obtain ⟨b, c, rfl⟩ := htwo ht
      obtain ⟨n, _, h⟩ := withInt_eq_turn.mp h
      obtain ⟨m, _, h⟩ := withInt_eq_turn.mp h
      cases h
      exact leads_jumpIf rfl rfl
    | null | nonnull => cases he; obtain ⟨v, rfl⟩ := hone ht; cases h; exact leads_jumpIf rfl rfl
  | switch low targets otherwise =>
    cases he
    obtain ⟨v, rfl⟩ := hone ht
    obtain ⟨n, _, h⟩ := withInt_eq_turn.mp h
    cases h
    exact ⟨Activation.switchTarget_mem, rfl⟩
  | checkcast n =>
    cases he
    obtain ⟨v, rfl⟩ := hone ht
    obtain ⟨cls, _, h⟩ := withEntry_eq_turn.mp h
    split at h
    · cases h
      exact ⟨rfl, rfl⟩
    · cases h
      rfl
  | instanceof n =>
    cases he
    obtain ⟨v, rfl⟩ := hone ht
    obtain ⟨cls, _, h⟩ := withEntry_eq_turn.mp h
    cases h
    exact ⟨rfl, rfl⟩
  | raise =>
    cases he
    obtain ⟨v, rfl⟩ := hone ht
    cases v with
    | exception e => cases h; rfl
    | _ =>
      obtain ⟨text, _, h⟩ := withText_eq_turn.mp h
      cases h
      rfl
  | invoke n => cases h; exact ⟨rfl, rfl, rfl⟩
  | newrec n =>
    obtain ⟨l, hl, he⟩ := Option.map_eq_some_iff.mp he
    cases he
    cases h
    exact ⟨rfl, rfl⟩
  | recget n f =>
    cases he
    obtain ⟨v, rfl⟩ := hone ht
    cases v with
    | record layout fields =>
      change (ite _ _ _ : Operation) = _ at h
      split at h
      · obtain ⟨x, _, h⟩ := withEntry_eq_turn.mp h
        cases h
        exact ⟨rfl, rfl⟩
      · cases h
    | _ => cases h

end Instr

end Resumable
