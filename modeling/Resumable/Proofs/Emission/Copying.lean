import Resumable.Proofs.Emission.Bodies
import Resumable.Proofs.Exec.Operate

/-!
# Copied instructions do what they did

An instruction that was copied operates on the same values, in tables that have only grown, and leads
to the copy of where it led. A raised exception is taken by the copy of the handler that took it. So
an activation of emitted code that stands at a copy, with the stack and the locals of an activation
of the function, does in one step what that activation does.
-/

namespace Resumable

open Activation List

/-! ## Instructions in greater tables -/

/-- The same surroundings, with other tables. -/
def Surroundings.within (w : Surroundings) (u : CodeUnit) : Surroundings := { w with unit := u }

/-- The turn, with another place for a jump. -/
def Turn.retarget (g : UInt32 → UInt32) : Turn → Turn
  | .jump t => .jump (g t)
  | t => t

namespace Operation

/-- The operation, with another place for a jump. -/
def retarget (g : UInt32 → UInt32) : Operation → Operation
  | turn t outs => turn (t.retarget g) outs
  | o => o

variable {w : Surroundings} {g : UInt32 → UInt32}

theorem retarget_turn {t : Turn} {outs : List Value} :
    (turn t outs).retarget g = turn (t.retarget g) outs := rfl

theorem retarget_withText {v : Value} {k : Text → Operation} :
    (withText w v k).retarget g = withText w v fun text => (k text).retarget g := by
  unfold withText
  cases w.format v <;> rfl

theorem retarget_withInt {v : Value} {k : Int64 → Operation} :
    (withInt w v k).retarget g = withInt w v fun n => (k n).retarget g := by
  cases v with
  | int n => rfl
  | _ => exact retarget_withText

/-- An entry that is there is still there in a greater table. -/
theorem withEntry_mono {α : Type} {table table' : List α} {n : UInt32} {k : α → Operation}
    {x : α} (h : table <+: table') (hx : item? table n = some x) :
    withEntry table' n k = withEntry table n k := by
  unfold withEntry
  rw [hx, item?_mono h hx]

end Operation

theorem Activation.switchTarget_map {low : Int32} {targets : List UInt32} {otherwise : UInt32}
    {n : Int64} {g : UInt32 → UInt32} :
    switchTarget low (targets.map g) (g otherwise) n = g (switchTarget low targets otherwise n) := by
  unfold switchTarget
  dsimp only
  split
  · rfl
  · rw [getElem?_map]
    cases targets[(n - low.toInt64).toNatClampNeg]? <;> rfl

theorem Turn.retarget_jumpIf {c : Bool} {t : UInt32} {g : UInt32 → UInt32} :
    (jumpIf c t).retarget g = jumpIf c (g t) := by
  cases c <;> rfl

namespace Instr

variable {x : Instr} {w : Surroundings} {u : CodeUnit} {locals : UInt32} {g : UInt32 → UInt32}

theorem slot?_retarget : (x.retarget g).slot? = x.slot? := by
  cases x <;> rfl

theorem stackEffect_copy {effect : Nat × Nat} (hu : w.unit.Extends u)
    (h : x.stackEffect w.unit = some effect) : (x.retarget g).stackEffect u = some effect := by
  cases x with
  | invoke n =>
    obtain ⟨s, hs, rfl⟩ := Option.map_eq_some_iff.mp h
    exact Option.map_eq_some_iff.mpr ⟨s, item?_mono hu.symbols hs, rfl⟩
  | newrec n =>
    obtain ⟨r, hr, rfl⟩ := Option.map_eq_some_iff.mp h
    exact Option.map_eq_some_iff.mpr ⟨r, item?_mono hu.records hr, rfl⟩
  | branch test t => cases test <;> exact h
  | _ => exact h

open Operation in
/-- **A copied instruction operates as it did.** -/
theorem operate_copy (hu : w.unit.Extends u) (hx : x.Refers w.unit locals) (ts : List Value) :
    (x.retarget g).operate (w.within u) ts = (x.operate w ts).retarget g := by
  cases x with
  | sconst n =>
    obtain ⟨s, hs⟩ := hx
    rcases ts with _ | ⟨v, ts⟩
    · show withEntry u.strings n _ = _
      rw [withEntry_mono hu.strings hs]
      show withEntry _ _ _ = (withEntry _ _ _).retarget g
      unfold withEntry
      rw [hs]
      rfl
    · rfl
  | checkcast n =>
    obtain ⟨s, hs⟩ := hx
    rcases ts with _ | ⟨v, _ | ⟨v', ts⟩⟩
    · rfl
    · show withEntry u.strings n _ = (withEntry w.unit.strings n _).retarget g
      rw [withEntry_mono hu.strings hs]
      unfold withEntry
      rw [hs]
      show (if v.isNull || isInstance w v s then _ else _) =
        (if v.isNull || isInstance w v s then _ else _ : Operation).retarget g
      split <;> rfl
    · rfl
  | instanceof n =>
    obtain ⟨s, hs⟩ := hx
    rcases ts with _ | ⟨v, _ | ⟨v', ts⟩⟩
    · rfl
    · show withEntry u.strings n _ = (withEntry w.unit.strings n _).retarget g
      rw [withEntry_mono hu.strings hs]
      unfold withEntry
      rw [hs]
      rfl
    · rfl
  | arith op =>
    rcases ts with _ | ⟨v, _ | ⟨v', _ | ⟨v'', ts⟩⟩⟩
    · rfl
    · rfl
    · show withInt w v _ = (withInt w v _).retarget g
      simp only [retarget_withInt]
      rfl
    · rfl
  | branch test t =>
    rcases ts with _ | ⟨v, _ | ⟨v', _ | ⟨v'', ts⟩⟩⟩ <;> cases test <;> try rfl
    · show withInt w v _ = (withInt w v _).retarget g
      simp only [retarget_withInt, retarget_turn, Turn.retarget_jumpIf]
    · show withInt w v _ = (withInt w v _).retarget g
      simp only [retarget_withInt, retarget_turn, Turn.retarget_jumpIf]
    · exact congrArg (turn · []) Turn.retarget_jumpIf.symm
    · exact congrArg (turn · []) Turn.retarget_jumpIf.symm
    · show withInt w v _ = (withInt w v _).retarget g
      simp only [retarget_withInt, retarget_turn, Turn.retarget_jumpIf]
      rfl
  | switch low targets otherwise =>
    rcases ts with _ | ⟨v, _ | ⟨v', ts⟩⟩
    · rfl
    · show withInt w v _ = (withInt w v _).retarget g
      simp only [retarget_withInt, retarget_turn, Turn.retarget, switchTarget_map]
    · rfl
  | raise =>
    rcases ts with _ | ⟨v, _ | ⟨v', ts⟩⟩
    · rfl
    · cases v with
      | exception e => rfl
      | _ =>
        show withText w _ _ = (withText w _ _).retarget g
        rw [retarget_withText]
        rfl
    · cases v <;> rfl
  | recget n f =>
    rcases ts with _ | ⟨v, _ | ⟨v', ts⟩⟩
    · rfl
    · cases v with
      | record layout fields =>
        show (if layout = n then _ else _) = (if layout = n then _ else _ : Operation).retarget g
        split
        · unfold withEntry
          cases item? fields f <;> rfl
        · rfl
      | _ => rfl
    · cases v <;> rfl
  | _ => rcases ts with _ | ⟨v, _ | ⟨v', _ | ⟨v'', ts⟩⟩⟩ <;> rfl

end Instr

/-! ## Raised exceptions -/

/-- Does a handler for a class take an exception? -/
def catches (w : Surroundings) (e : Exception) (h : Text × Nat) : Bool :=
  h.1.isEmpty || w.classes.isSubclass e.cls h.1

/-- The first handler that covers an instruction and takes an exception goes on with it. -/
theorem Activation.raise_eq (w : Surroundings) (a : Activation) (e : Exception) :
    a.raise w e =
      match (handlersAt a.body.func.handlers a.pc).find? (catches w e) with
      | some h => .next { a with stack := [.exception e], pc := h.2 }
      | none => .raised e := by
  have hfind : (handlersAt a.body.func.handlers a.pc).find? (catches w e) =
      (a.body.func.handlers.find? (takes w a.pc e)).map fun h => (h.cls, h.target.toNat) := by
    unfold handlersAt
    rw [find?_map, find?_filter]
    congr 2
    funext h
    simp [takes, catches]
  rw [hfind]
  unfold raise
  cases a.body.func.handlers.find? (takes w a.pc e) <;> rfl

theorem mem_handlersAt {hs : List Handler} {pc : Nat} {p : Text × Nat} (h : p ∈ handlersAt hs pc) :
    ∃ h' ∈ hs, h'.covers pc ∧ p.2 = h'.target.toNat := by
  obtain ⟨h', hmem, rfl⟩ := mem_map.mp h
  obtain ⟨hin, hcov⟩ := mem_filter.mp hmem
  exact ⟨h', hin, hcov, rfl⟩

namespace Emission

variable {e : Emission} {u : CodeUnit} {l : Liveness} {ctx : TypingContext} {sites : List Nat}
  {after : Nat → UInt32 → Prop} {a b : Activation} {m : Nat}

/-- Where there is no stop, there is no point. -/
theorem Planned.ne_point (hp : e.Planned u l ctx sites after) {i : Nat}
    (hstop : e.stops.find? (·.point.instr = i) = none) : ∀ p ∈ e.plan.points, p.instr ≠ i := by
  intro p hpoint heq
  obtain ⟨s, hs, rfl⟩ := hp.prepared.numbered.exists_stop hpoint
  have := find?_eq_none.mp hstop s hs
  simp [heq] at this

/-! ## Copies of activations -/

/-- One of the functions of a state machine, with the copies that it holds. -/
structure Copy (e : Emission) (u : CodeUnit) where
  body : Body
  included : List Nat
  /-- The local that holds the machine, once there is one. -/
  machine : Option UInt32
  pos : Nat → Nat
  copies : e.Copies included machine body.code body.func.handlers pos
  encloses : e.plan.Encloses e.body e.function.handlers included
  checked : u.bodyOf body.func = .ok body.code
  behind : ∀ n, machine = some n → e.plan.locals + 1 + e.deepest ≤ n.toNat

namespace Copy

/-- The locals of an activation come first among those of an activation of the copy. -/
structure Holds (c : Copy e u) (m : Nat) (a b : Activation) : Prop where
  body : b.body = c.body
  locals : a.locals <+: b.locals
  count : b.locals.length = c.body.func.maxLocals.toNat
  machine : ∀ n, c.machine = some n → item? b.locals n = some (.machine m)

/-- An activation of the copy stands where an activation of the function does. -/
structure Mirrors (c : Copy e u) (m : Nat) (a b : Activation) : Prop extends c.Holds m a b where
  pc : b.pc = c.pos a.pc
  inside : e.plan.analysis.graph.blockNumber a.pc ∈ c.included
  stack : b.stack = a.stack

/-- A step of the copy does what a step of the function does. -/
inductive Follows (c : Copy e u) (m : Nat) : Step → Step → Prop
  | next {x y : Activation} (h : c.Mirrors m x y) : Follows c m (.next x) (.next y)
  | call {x y : Activation} (symbol : UInt32) (args : List Value) (h : c.Mirrors m x y) :
      Follows c m (.call symbol args x) (.call symbol args y)
  | done (v : Value) : Follows c m (.done v) (.done v)
  | raised (x : Exception) : Follows c m (.raised x) (.raised x)
  | stopped (f f' : Failure) : Follows c m (.stopped f) (.stopped f')

variable {c : Copy e u}

theorem Holds.of_eq {a' b' : Activation} (h : c.Holds m a b) (hbody : b'.body = b.body)
    (ha : a'.locals = a.locals) (hb : b'.locals = b.locals) : c.Holds m a' b' :=
  ⟨hbody.trans h.body, by rw [ha, hb]; exact h.locals, by rw [hb]; exact h.count,
    by rw [hb]; exact h.machine⟩

/-- Where the copies of the handlers of an instruction cover the place of an activation, an exception
goes to the copy of the handler that takes it. -/
theorem Holds.raise {w : Surroundings} {i : Nat} (h : c.Holds m a b)
    (ha : a.body.func = e.function) (hpc : a.pc = i) (hlt : i < e.body.length)
    (hin : e.graph.blockNumber i ∈ c.included ∨
      ∃ p ∈ e.plan.points, p.instr = i)
    (hcov : handlersAt c.body.func.handlers b.pc =
      (handlersAt e.function.handlers i).map fun p => (p.1, c.pos p.2))
    (x : Exception) : c.Follows m (a.raise w x) (b.raise (w.within u) x) := by
  rw [raise_eq, raise_eq, h.body, ha, hpc, hcov, find?_map]
  have hcatches : catches (w.within u) x ∘ (fun p : Text × Nat => (p.1, c.pos p.2)) = catches w x := rfl
  rw [hcatches]
  cases hfind : (handlersAt e.function.handlers i).find? (catches w x) with
  | none => exact .raised x
  | some p =>
    obtain ⟨h', hmem, hcovers, htarget⟩ := mem_handlersAt (mem_of_find?_eq_some hfind)
    refine .next ⟨h.of_eq h.body.symm rfl rfl, rfl, ?_, rfl⟩
    show e.graph.blockNumber p.2 ∈ c.included
    rw [htarget]
    rcases hin with hin | ⟨q, hq, rfl⟩
    · exact c.encloses.caught hlt hin hmem hcovers
    · exact c.encloses.resumed q hq h' hmem hcovers

theorem Holds.set {n : UInt32} (h : c.Holds m a b) (hn : n.toNat < a.locals.length)
    (hlen : a.locals.length = e.plan.locals) (v : Value) :
    c.Holds m { a with locals := a.locals.set n.toNat v }
      { b with locals := b.locals.set n.toNat v } where
  body := h.body
  locals := prefix_set h.locals hn v
  count := (length_set ..).trans h.count
  machine k hk := by
    have hbehind := c.behind k hk
    rw [← h.machine k hk]
    exact getElem?_set_ne (by omega)

section

variable (hp : e.Planned u l ctx sites after) {w : Surroundings} (hw : w.unit = l.unit)
  (ha : a.body = ⟨e.function, e.body⟩)

include hp hw ha

/-- An instruction that works on the stack only. -/
theorem Mirrors.operate {x : Instr} {pops pushes : Nat} (h : c.Mirrors m a b)
    (hx : e.body[a.pc]? = some x) (he : x.stackEffect l.unit = some (pops, pushes))
    (hpops : pops ≤ a.stack.length) (hslot : x.slot? = none)
    (hcopy : b.body.code[b.pc]? = some (x.retarget fun t => UInt32.ofNat (c.pos t.toNat)))
    (hsucc : c.pos (a.pc + 1) = c.pos a.pc + 1)
    (hinside : ∀ j ∈ Graph.nexts x a.pc, e.graph.blockNumber j ∈ c.included) :
    c.Follows m (a.step w) (b.step (w.within u)) := by
  obtain ⟨ts, rest, hst, hts⟩ : ∃ ts rest, a.stack = ts ++ rest ∧ ts.length = pops :=
    ⟨a.stack.take pops, a.stack.drop pops, (take_append_drop _ _).symm, by simp; omega⟩
  have hcode : a.body.code[a.pc]? = some x := by rw [ha]; exact hx
  have hlt := lt_of_getElem? hx
  have hext : w.unit.Extends u := hw ▸ hp.extended
  have hrefers : x.Refers w.unit e.function.maxLocals := by
    rw [hp.code] at hx
    exact hw ▸ ((CodeUnit.bodyOf_eq_ok.mp hp.checked).2.2.2.1 x (mem_of_getElem? hx)).2
  rw [step_operate a hcode hslot (hw ▸ he) hts hst,
    step_operate b hcopy (Instr.slot?_retarget.trans hslot)
      (Instr.stackEffect_copy hext (hw ▸ he)) hts (h.stack.trans hst),
    Instr.operate_copy hext hrefers]
  cases hturn : x.operate w ts with
  | fault p d | failure f => exact .stopped _ _
  | turn t outs =>
    have hleads := Instr.operate_leads (hw ▸ he) hts hturn
    cases t with
    | next =>
      refine .next ⟨h.toHolds.of_eq rfl rfl rfl, ?_, hinside _ (by simp [Graph.nexts, hleads.1]),
        rfl⟩
      show b.pc + 1 = c.pos (a.pc + 1)
      rw [h.pc, hsucc]
    | jump t =>
      have hj : t.toNat ∈ Graph.nexts x a.pc :=
        mem_append_right _ (mem_map.mpr ⟨t, hleads.1, rfl⟩)
      refine .next ⟨h.toHolds.of_eq rfl rfl rfl, ?_, hinside _ hj, rfl⟩
      exact UInt32.toNat_ofNat_of_lt'
        (c.copies.small (Nat.le_of_lt (hp.divides.nexts_lt hx _ hj)))
    | call n args => exact .call n args ⟨h.toHolds.of_eq rfl rfl rfl, h.pc, h.inside, rfl⟩
    | leave v => exact .done v
    | raise x =>
      refine (h.toHolds.of_eq rfl rfl rfl : c.Holds m { a with stack := outs ++ rest }
        { b with stack := outs ++ rest }).raise (congrArg Body.func ha) rfl hlt (.inl h.inside) ?_ x
      show handlersAt _ b.pc = (handlersAt _ a.pc).map _
      rw [h.pc]
      exact c.copies.handlers h.inside hlt (Nat.le_refl _) (by omega)

/-- **A copied instruction does what it did.** -/
theorem Mirrors.step {F : Frame} (h : c.Mirrors m a b) (hlen : a.locals.length = e.plan.locals)
    (hF : l.analysis.frameAt a.pc = some F) (hheight : a.stack.length = F.stack.length)
    (hstop : e.stops.find? (·.point.instr = a.pc) = none) :
    c.Follows m (a.step w) (b.step (w.within u)) := by
  obtain ⟨x, pops, pushes, hx, he, hpops⟩ := hp.fits.effect hF
  have hx' : e.body[a.pc]? = some x := by rw [hp.code]; exact hx
  have hcode : a.body.code[a.pc]? = some x := by rw [ha]; exact hx'
  obtain ⟨hcopy, hsucc⟩ := c.copies.instr hx' h.inside hstop
  rw [← h.body, ← h.pc] at hcopy
  have hinside : ∀ j ∈ Graph.nexts x a.pc, e.graph.blockNumber j ∈ c.included :=
    fun j hj => c.encloses.next hx' h.inside (hp.ne_point hstop) hj
  have hslot : ∀ n, x.slot? = some n → n.toNat < a.locals.length := by
    intro n hn
    have hrefers := ((CodeUnit.bodyOf_eq_ok.mp hp.checked).2.2.2.1 x (mem_of_getElem? hx)).2
    rw [hlen, hp.plan.locals, hp.locals]
    exact UInt32.lt_iff_toNat_lt.mp (hrefers.slot_lt hn)
  cases x with
  | load n =>
    have hn := hslot n rfl
    obtain ⟨v, hv⟩ : ∃ v, item? a.locals n = some v := exists_item?_iff.mpr hn
    rw [step_load a hcode hv,
      step_load b hcopy (item?_mono h.locals hv), h.stack]
    refine .next ⟨h.toHolds.of_eq rfl rfl rfl, ?_, hinside _ mem_cons_self, rfl⟩
    show b.pc + 1 = c.pos (a.pc + 1)
    rw [h.pc, hsucc]
  | store n =>
    have hn := hslot n rfl
    obtain ⟨pops, outs⟩ : pops = 1 ∧ pushes = 0 := by
      cases he
      exact ⟨rfl, rfl⟩
    obtain ⟨v, rest, hst⟩ := exists_cons_of_length_pos (l := a.stack) (by omega)
    rw [step_store a hcode hst, step_store b hcopy (h.stack.trans hst)]
    refine .next ⟨(h.toHolds.set hn hlen v).of_eq rfl rfl rfl, ?_, hinside _ mem_cons_self, rfl⟩
    show b.pc + 1 = c.pos (a.pc + 1)
    rw [h.pc, hsucc]
  | _ => exact h.operate hp hw ha hx' he (by omega) rfl hcopy hsucc hinside

/-- A copied call goes on with an answer as it did. -/
theorem Mirrors.receive_ok {n : UInt32} {s : Symbol} (h : c.Mirrors m a b)
    (hx : e.body[a.pc]? = some (.invoke n)) (hs : item? l.unit.symbols n = some s)
    (hstop : e.stops.find? (·.point.instr = a.pc) = none) (v : Value) :
    c.Follows m (a.receive w (.ok v)) (b.receive (w.within u) (.ok v)) := by
  obtain ⟨hcopy, hsucc⟩ := c.copies.instr hx h.inside hstop
  rw [← h.body, ← h.pc] at hcopy
  have hcode : a.body.code[a.pc]? = some (.invoke n) := by rw [ha]; exact hx
  rw [Activation.receive_ok a hcode (hw ▸ hs),
    Activation.receive_ok b hcopy (item?_mono hp.extended.symbols hs), h.stack]
  refine .next ⟨h.toHolds.of_eq rfl rfl rfl, ?_, ?_, rfl⟩
  · show b.pc + 1 = c.pos (a.pc + 1)
    rw [h.pc, hsucc]
  · exact c.encloses.next hx h.inside (hp.ne_point hstop) mem_cons_self

end

end Copy

end Emission

end Resumable
