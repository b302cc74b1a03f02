import Mathlib.Logic.Relation
import Resumable.Proofs.Emission.Layout
import Resumable.Proofs.Exec.Operate
import Resumable.Proofs.Exec.World

/-!
# Straight code

Code that only moves values between locals, stack and records goes from its first instruction to its
last, and what it does does not depend on the world. `Carries` says what a row of such instructions
makes of the locals and the stack. An activation that comes to such a row in its code glides over it,
and an invocation passes it without a visible move.
-/

namespace Resumable

open List

/-- What an instruction that moves values makes of the locals and the stack. -/
inductive Instr.Shifts (u : CodeUnit) :
    Instr → List Value → List Value → List Value → List Value → Prop
  | load {n : UInt32} {ls st : List Value} {v : Value} (h : item? ls n = some v) :
      Shifts u (.load n) ls st ls (v :: st)
  | store (n : UInt32) (ls st : List Value) (v : Value) :
      Shifts u (.store n) ls (v :: st) (ls.set n.toNat v) st
  | pop (ls st : List Value) (v : Value) : Shifts u .pop ls (v :: st) ls st
  | dup (ls st : List Value) (v : Value) : Shifts u .dup ls (v :: st) ls (v :: v :: st)
  | null (ls st : List Value) : Shifts u .null ls st ls (.null :: st)
  | iconst (n : Int64) (ls st : List Value) : Shifts u (.iconst n) ls st ls (.int n :: st)
  | sconst {i : UInt32} {s : Text} (h : item? u.strings i = some s) (ls st : List Value) :
      Shifts u (.sconst i) ls st ls (.str s :: st)
  | newrec {i : UInt32} {r : Layout} {fs : List Value} (h : item? u.records i = some r)
      (hlen : fs.length = r.fields.length) (ls st : List Value) :
      Shifts u (.newrec i) ls (fs.reverse ++ st) ls (.record i fs :: st)
  | recget {i k : UInt32} {fs : List Value} {v : Value} (h : item? fs k = some v)
      (ls st : List Value) :
      Shifts u (.recget i k) ls (.record i fs :: st) ls (v :: st)

/-- What a row of instructions that move values makes of the locals and the stack. -/
inductive Carries (u : CodeUnit) :
    List Instr → List Value → List Value → List Value → List Value → Prop
  | nil (ls st : List Value) : Carries u [] ls st ls st
  | cons {i : Instr} {row : List Instr} {ls ls' ls'' st st' st'' : List Value}
      (h : i.Shifts u ls st ls' st') (hrow : Carries u row ls' st' ls'' st'') :
      Carries u (i :: row) ls st ls'' st''

variable {u : CodeUnit} {ls ls' ls'' st st' st'' : List Value}

theorem Carries.append {row row' : List Instr} (h : Carries u row ls st ls' st')
    (h' : Carries u row' ls' st' ls'' st'') : Carries u (row ++ row') ls st ls'' st'' := by
  induction h with
  | nil => exact h'
  | cons hi _ ih => exact .cons hi (ih h')

theorem Instr.Shifts.carries {i : Instr} (h : i.Shifts u ls st ls' st') :
    Carries u [i] ls st ls' st' := .cons h (.nil _ _)

/-- Loads put the values of their locals on the stack, the last one on top. -/
theorem carries_loads {ns : List UInt32} {vs : List Value}
    (h : Forall₂ (fun n v => item? ls n = some v) ns vs) (st : List Value) :
    Carries u (ns.map .load) ls st ls (vs.reverse ++ st) := by
  induction h generalizing st with
  | nil => exact .nil ls st
  | cons hn _ ih =>
    rw [reverse_cons, append_assoc]
    exact .cons (.load hn) (ih _)

namespace Activation

variable {w : Surroundings} {a : Activation}

theorem step_shifts {i : Instr} (hcode : a.body.code[a.pc]? = some i)
    (h : i.Shifts w.unit a.locals a.stack ls st) :
    a.step w = .next { a with locals := ls, stack := st, pc := a.pc + 1 } := by
  obtain ⟨body, locals, stack, pc⟩ := a
  cases h with
  | load hv => exact step_load _ hcode hv
  | store n ls st v => exact step_store _ hcode rfl
  | pop ls st v | dup ls st v => exact step_operate (t := [v]) _ hcode rfl rfl rfl rfl
  | null ls st | iconst n ls st => exact step_operate (t := []) _ hcode rfl rfl rfl rfl
  | @sconst i s hs ls st =>
    rw [step_operate (t := []) _ hcode rfl rfl rfl rfl]
    show (Operation.withEntry _ _ _).step w _ _ = _
    unfold Operation.withEntry
    rw [hs]
    rfl
  | @newrec i r fs hr hlen ls st =>
    have heffect : (Instr.newrec i).stackEffect w.unit = some (r.fields.length, 1) :=
      Option.map_eq_some_iff.mpr ⟨r, hr, rfl⟩
    rw [step_operate _ hcode rfl heffect (length_reverse.trans hlen) rfl]
    show Operation.step w _ _ (.next [.record i fs.reverse.reverse]) = _
    rw [reverse_reverse]
    rfl
  | @recget i k fs v hv ls st =>
    rw [step_operate (t := [.record i fs]) _ hcode rfl rfl rfl rfl]
    show (if i = i then _ else _ : Operation).step w _ _ = _
    rw [if_pos rfl]
    unfold Operation.withEntry
    rw [hv]
    rfl

theorem step_goto {t : UInt32} (hcode : a.body.code[a.pc]? = some (.goto t)) :
    a.step w = .next { a with pc := t.toNat } :=
  step_operate (t := []) a hcode rfl rfl rfl rfl

/-- Goes on to another instruction, and to others, without a call. -/
def Glides (w : Surroundings) : Activation → Activation → Prop :=
  Relation.ReflTransGen fun a b => a.step w = .next b

/-- **An activation glides over straight code.** -/
theorem glides_row {row : List Instr} (hsits : Sits a.body.code a.pc row)
    (h : Carries w.unit row a.locals a.stack ls st) :
    a.Glides w { a with locals := ls, stack := st, pc := a.pc + row.length } := by
  obtain ⟨body, locals, stack, pc⟩ := a
  dsimp only at hsits h
  induction h generalizing pc with
  | nil => exact .refl
  | @cons i row ls ls' ls'' st st' st'' hi _ ih =>
    obtain ⟨hcode, hrest⟩ := sits_cons_iff.mp hsits
    rw [length_cons, Nat.add_comm row.length, ← Nat.add_assoc]
    exact .head (step_shifts hcode hi) (ih (pc + 1) hrest)

/-- Only an instruction that makes a call leads to one. -/
theorem eq_invoke_of_step {i : Instr} {pops pushes : Nat} {n : UInt32} {args : List Value}
    {a' : Activation} (hcode : a.body.code[a.pc]? = some i)
    (he : i.stackEffect w.unit = some (pops, pushes)) (hpops : pops ≤ a.stack.length)
    (hslot : ∀ n, i = .load n → ∃ v, item? a.locals n = some v)
    (h : a.step w = .call n args a') : i = .invoke n ∧ a'.pc = a.pc := by
  obtain ⟨ts, rest, hst, hts⟩ : ∃ ts rest, a.stack = ts ++ rest ∧ ts.length = pops :=
    ⟨a.stack.take pops, a.stack.drop pops, (take_append_drop _ _).symm, by simp; omega⟩
  have hoperate (hnone : i.slot? = none) : i = .invoke n ∧ a'.pc = a.pc := by
    rw [step_operate a hcode hnone he hts hst] at h
    cases hop : i.operate w ts with
    | fault problem detail | failure f => rw [hop] at h; cases h
    | turn t outs =>
      rw [hop] at h
      have hleads := Instr.operate_leads he hts hop
      cases t with
      | call m args' =>
        cases h
        exact ⟨hleads.1, rfl⟩
      | raise e =>
        rw [Operation.step, turn] at h
        unfold raise at h
        split at h <;> cases h
      | _ => cases h
  cases i with
  | load m =>
    obtain ⟨v, hv⟩ := hslot m rfl
    rw [step_load a hcode hv] at h
    cases h
  | store m =>
    cases he
    obtain ⟨v, rfl⟩ := length_eq_one_iff.mp hts
    rw [step_store a hcode hst] at h
    cases h
  | _ => exact hoperate rfl

/-- A call takes its arguments from the stack. -/
theorem step_invoke {n : UInt32} {s : Symbol} (args : List Value) {rest : List Value}
    (hcode : a.body.code[a.pc]? = some (.invoke n)) (hs : item? w.unit.symbols n = some s)
    (hargs : args.length = s.params.length) (hst : a.stack = args.reverse ++ rest) :
    a.step w = .call n args { a with stack := rest } := by
  have heffect : (Instr.invoke n).stackEffect w.unit =
      some (s.params.length, if s.result = .void then 0 else 1) :=
    Option.map_eq_some_iff.mpr ⟨s, hs, rfl⟩
  rw [step_operate a hcode rfl heffect (length_reverse.trans hargs) hst]
  show Step.call n args.reverse.reverse _ = _
  rw [reverse_reverse]
  rfl

end Activation

namespace World

open Moves

variable {σ : Type} {w : World σ} {p : Program} {x : Invoked σ} {a a' : Activation}

theorem move_run {step : Step} (hx : x.stage = .run a)
    (h : a.step (w.surroundings p x.state) = step) : w.move p x = w.follow p x step := by
  unfold move
  rw [hx]
  dsimp only
  rw [h]

theorem move_next (hx : x.stage = .run a) (h : a.step (w.surroundings p x.state) = .next a') :
    w.move p x = .going { x with stage := .run a' } none := move_run hx h

theorem move_call {n : UInt32} {args : List Value} {s : Symbol} (hx : x.stage = .run a)
    (h : a.step (w.surroundings p x.state) = .call n args a')
    (hs : item? p.unit.symbols n = some s) : w.move p x = w.call x a' s args := by
  rw [move_run hx h]
  unfold follow
  dsimp only
  rw [hs]

/-- An invocation goes on with an answer. -/
theorem move_ok {n : UInt32} {s : Symbol} {v : Value} (hx : x.stage = .answered a (.ok v))
    (hcode : a.body.code[a.pc]? = some (.invoke n)) (hs : item? p.unit.symbols n = some s) :
    w.move p x = .going { x with stage := .run { a with
      stack := Activation.delivered s.result v ++ a.stack, pc := a.pc + 1 } } none := by
  have hreceive : a.receive (w.surroundings p x.state) (.ok v) = .next { a with
      stack := Activation.delivered s.result v ++ a.stack, pc := a.pc + 1 } :=
    Activation.receive_ok a hcode hs
  unfold move
  rw [hx]
  dsimp only
  rw [hreceive]
  rfl

section

variable {s : Symbol} {args : List Value}

theorem call_isDone (hs : s.service = .isDone) :
    w.call x a s args = .going { x with stage := .answered a (w.isDone x.state args) } none := by
  unfold call
  rw [hs]

theorem call_join (hs : s.service = .join) :
    w.call x a s args =
      .going { x with stage := .answered a (w.join x.state args).1,
                      state := (w.join x.state args).2 } none := by
  unfold call
  rw [hs]

theorem call_suspend {h : Handover} (hs : s.service = .suspend) (hargs : w.handover args = some h) :
    w.call x a s args =
      .going { x with stage := .answered a (.ok (.future w.promise)), handover := some h } none := by
  unfold call
  rw [hs]
  dsimp only
  rw [hargs]

theorem call_other (hs : s.service = .other) :
    w.call x a s args =
      .going { x with stage := .answered a (w.answer x.state s args).1,
                      state := (w.answer x.state s args).2 } (some (s, args)) := by
  unfold call
  rw [hs]

end

theorem reaches_of_glides {s : σ} (h : a.Glides (w.surroundings p s) a') (o : Option Handover) :
    Reaches (w.move p) ⟨.run a, o, s⟩ ⟨.run a', o, s⟩ := by
  induction h using Relation.ReflTransGen.head_induction_on with
  | refl => exact .refl _ _
  | head hstep _ ih => exact .step (move_next rfl hstep) ih

end World

end Resumable
