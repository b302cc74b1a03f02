import Resumable.Proofs.Exec.Operate
import Resumable.Proofs.Live.Solution

/-!
# Positions that are not live do not matter

Two activations of a function that agree on the live positions cannot be told apart: they make the
same calls and end in the same way, whatever the calls answer. The proof runs both side by side.
`Twins` holds of two activations that are about to run the same instruction and agree on what is
needed before it, `Waiting` of two that made the same call and agree on what is needed after it, and
every step leads from such pairs to such pairs.
-/

namespace Resumable

open Activation List

/-! ## Runs -/

/-- What an activation comes to. -/
inductive Ending
  | running
  | done (result : Value)
  | raised (e : Exception)
  | stopped (f : Failure)
deriving Repr

namespace Activation

/-- The calls that an activation makes in some steps and what it comes to, from a step on. Calls are
answered by an environment that may change with each of them. -/
def run {W : Type} (w : Surroundings) (answer : W → UInt32 → List Value → Except Error Value × W) :
    (steps : Nat) → W → Step → List (UInt32 × List Value) × Ending
  | 0, _, _ => ([], .running)
  | n + 1, world, .next a => run w answer n world (a.step w)
  | n + 1, world, .call symbol args a =>
    let (reply, world) := answer world symbol args
    let (calls, ending) := run w answer n world (a.receive w reply)
    ((symbol, args) :: calls, ending)
  | _ + 1, _, .done v => ([], .done v)
  | _ + 1, _, .raised e => ([], .raised e)
  | _ + 1, _, .stopped f => ([], .stopped f)

/-- The locals and the stack slots from the bottom up. -/
def cells (a : Activation) : List Value := a.locals ++ a.stack.reverse

/-- The value at a position. -/
def valueAt (a : Activation) (v : UInt32) : Option Value := a.cells[v.toNat]?

end Activation

namespace Liveness

variable {l : Liveness} {f : Func} {a b : Activation} {live live' : UInt32 → Prop}

/-- Two activations of a function at the same instruction that agree on some positions. -/
structure Alike (l : Liveness) (f : Func) (live : UInt32 → Prop) (a b : Activation) : Prop where
  body : a.body = ⟨f, l.body⟩ ∧ b.body = ⟨f, l.body⟩
  pc : a.pc = b.pc
  locals : a.locals.length = l.locals ∧ b.locals.length = l.locals
  height : a.stack.length = b.stack.length
  values : ∀ v, live v → a.valueAt v = b.valueAt v

/-- Both are about to run the same instruction. -/
theorem Alike.code {i : Instr} (h : l.Alike f live a b) (hi : l.body[a.pc]? = some i) :
    a.body.code[a.pc]? = some i ∧ b.body.code[b.pc]? = some i := by
  rw [h.body.1, h.body.2, ← h.pc]
  exact ⟨hi, hi⟩

/-- Rows of the same length that agree on a place, if it is theirs, do so before the same row. -/
theorem getElem?_append_agree {X Y Z X' Y' : List Value} {n : Nat} (hlen : X.length = Y.length)
    (h : n < X.length → (X ++ X')[n]? = (Y ++ Y')[n]?) : (X ++ Z)[n]? = (Y ++ Z)[n]? := by
  by_cases hn : n < X.length
  · have hn' : n < Y.length := by omega
    rw [getElem?_append_left hn, getElem?_append_left hn']
    have := h hn
    rwa [getElem?_append_left hn, getElem?_append_left hn'] at this
  · rw [getElem?_append_right (by omega), getElem?_append_right (by omega), hlen]

/-- The cells below the topmost values, and those values. -/
theorem cells_append {ts rest : List Value} (ha : a.stack = ts ++ rest) :
    a.cells = (a.locals ++ rest.reverse) ++ ts.reverse := by
  unfold cells
  rw [ha, reverse_append, append_assoc]

/-- Activations that agree below their topmost values still do with new values on top. -/
theorem Alike.replace {ts us rest rest' : List Value} (h : l.Alike f live a b)
    (ha : a.stack = ts ++ rest) (hb : b.stack = us ++ rest') (hr : rest.length = rest'.length)
    (hlive : ∀ v, v.toNat < l.locals + rest.length → live' v → live v) (outs : List Value)
    (pc : Nat) :
    l.Alike f live' { a with stack := outs ++ rest, pc := pc }
      { b with stack := outs ++ rest', pc := pc } := by
  obtain ⟨hla, hlb⟩ := h.locals
  refine ⟨h.body, rfl, h.locals, by simp [hr], fun v hv => ?_⟩
  have hlen : (a.locals ++ rest.reverse).length = (b.locals ++ rest'.reverse).length := by
    simp [hla, hlb, hr]
  have hcells := h.values v
  unfold valueAt at hcells ⊢
  rw [cells_append ha, cells_append hb] at hcells
  rw [cells_append (show _ = outs ++ rest from rfl), cells_append (show _ = outs ++ rest' from rfl)]
  refine getElem?_append_agree hlen fun hlt => hcells (hlive v ?_ hv)
  rw [length_append, length_reverse] at hlt
  exact hla ▸ hlt

/-- The value of a local is that of its position. -/
theorem item?_locals {n : UInt32} (h : n.toNat < a.locals.length) :
    item? a.locals n = a.valueAt n := by
  unfold item? valueAt cells
  rw [getElem?_append_left h]

theorem valueAt_set {n v : UInt32} (hn : n.toNat < a.locals.length) (x : Value) :
    valueAt { a with locals := a.locals.set n.toNat x } v =
      if v = n then some x else a.valueAt v := by
  unfold valueAt cells
  show (a.locals.set n.toNat x ++ a.stack.reverse)[v.toNat]? = _
  rw [← set_append_left _ _ hn]
  split
  next h =>
    subst h
    rw [getElem?_set_self (by rw [length_append]; omega)]
  next h => rw [getElem?_set_ne fun heq => h (UInt32.toNat_inj.mp heq.symm)]

/-- Activations that agree on all but a local agree once the local is written. -/
theorem Alike.set {n : UInt32} (h : l.Alike f live a b) (hn : n.toNat < l.locals)
    (hlive : ∀ v, v ≠ n → live' v → live v) (x : Value) :
    l.Alike f live' { a with locals := a.locals.set n.toNat x }
      { b with locals := b.locals.set n.toNat x } := by
  obtain ⟨hla, hlb⟩ := h.locals
  refine ⟨h.body, h.pc, by simp [hla, hlb], h.height, fun v hv => ?_⟩
  rw [valueAt_set (hla ▸ hn), valueAt_set (hlb ▸ hn)]
  split
  · rfl
  · exact h.values v (hlive v ‹_› hv)

/-- Activations that agree on all stack slots from a place on have the same values there. -/
theorem Alike.top_eq {ts us rest rest' : List Value} (h : l.Alike f live a b)
    (ha : a.stack = ts ++ rest) (hb : b.stack = us ++ rest') (hts : ts.length = us.length)
    (hn : l.locals + a.stack.length < 2 ^ 32)
    (hlive : ∀ v, l.locals + rest.length ≤ v.toNat → v.toNat < l.locals + a.stack.length → live v) :
    ts = us := by
  obtain ⟨hla, hlb⟩ := h.locals
  have hheight := h.height
  rw [ha, hb, length_append, length_append] at hheight
  rw [ha, length_append] at hn hlive
  rw [← reverse_inj]
  refine ext_getElem? fun k => ?_
  by_cases hk : k < ts.length
  · have hpos : (UInt32.ofNat (l.locals + rest.length + k)).toNat = l.locals + rest.length + k :=
      UInt32.toNat_ofNat_of_lt' (show _ < 2 ^ 32 by omega)
    have hv := h.values _ (hlive (UInt32.ofNat (l.locals + rest.length + k)) (by omega) (by omega))
    unfold valueAt at hv
    rw [hpos, cells_append ha, cells_append hb, getElem?_append_right (by simp [hla]),
      getElem?_append_right (by simp [hlb]; omega)] at hv
    simp only [length_append, length_reverse, hla, hlb] at hv
    rwa [show l.locals + rest.length + k - (l.locals + rest.length) = k by omega,
      show l.locals + rest.length + k - (l.locals + rest'.length) = k by omega] at hv
  · rw [getElem?_eq_none (by simpa using hk), getElem?_eq_none (by simp; omega)]

/-! ## Steps side by side -/

/-- Two activations that are about to run an instruction, with the height of its frame, and agree on
what is needed before it. -/
def Twins (l : Liveness) (f : Func) (before : Nat → UInt32 → Prop) (a b : Activation) : Prop :=
  l.Alike f (before a.pc) a b ∧
    ∃ F, l.analysis.frameAt a.pc = some F ∧ a.stack.length = F.stack.length

/-- Two activations that wait for the answer of the same call and agree on what is needed after
it. -/
def Waiting (l : Liveness) (f : Func) (after : Nat → UInt32 → Prop) (a b : Activation) : Prop :=
  l.Alike f (after a.pc) a b ∧
    ∃ F n pops pushes, l.analysis.frameAt a.pc = some F ∧ l.body[a.pc]? = some (.invoke n) ∧
      (Instr.invoke n).stackEffect l.unit = some (pops, pushes) ∧
      a.stack.length + pops = F.stack.length

/-- Two steps that do the same and lead to activations that agree again. -/
inductive Agrees (l : Liveness) (f : Func) (before after : Nat → UInt32 → Prop) :
    Step → Step → Prop
  | next {x y : Activation} (h : l.Twins f before x y) :
      Agrees l f before after (.next x) (.next y)
  | call {x y : Activation} (symbol : UInt32) (args : List Value) (h : l.Waiting f after x y) :
      Agrees l f before after (.call symbol args x) (.call symbol args y)
  | done (v : Value) : Agrees l f before after (.done v) (.done v)
  | raised (e : Exception) : Agrees l f before after (.raised e) (.raised e)
  | stopped (x : Failure) : Agrees l f before after (.stopped x) (.stopped x)

variable {ctx : TypingContext} {splits : List Int} {entry : Frame} {w : Surroundings}
  {before after : Nat → UInt32 → Prop} {F : Frame}

theorem height_of_admits {φ : Nat → Option Frame} {j : Nat}
    (h : Admits (fun _ _ => True) φ j F) :
    ∃ F', φ j = some F' ∧ F'.stack.length = F.stack.length := by
  obtain ⟨F', hF', hle⟩ := h
  exact ⟨F', hF', hle.stack.length_eq.symm⟩

section

variable (hl : l.Fits ctx f.handlers splits entry) (ht : l.Table f.handlers before after)

include hl ht

/-- A raised exception leads both to the same handler, or out of the function. -/
theorem raise_agrees (h : l.Alike f (after a.pc) a b) (hF : l.analysis.frameAt a.pc = some F)
    (e : Exception) : Agrees l f before after (a.raise w e) (b.raise w e) := by
  have hfa : a.body.func.handlers = f.handlers := by rw [h.body.1]
  have hfb : b.body.func.handlers = f.handlers := by rw [h.body.2]
  unfold raise
  rw [hfa, hfb, ← h.pc]
  cases hfind : f.handlers.find? (takes w a.pc e) with
  | none => exact .raised e
  | some hd =>
    have hmem := mem_of_find?_eq_some hfind
    have hcov : hd.covers a.pc = true := by
      have := find?_some hfind
      unfold takes at this
      exact (Bool.and_eq_true_iff.mp this).1
    obtain ⟨F', hF', hheight⟩ := height_of_admits (hl.typing.caught hF hmem hcov)
    refine .next ⟨?_, F', hF', hheight.symm⟩
    exact h.replace (append_nil a.stack).symm (append_nil b.stack).symm rfl
      (fun v hlt hv => ht.caught hF hmem hcov hv hlt) [.exception e] hd.target.toNat

/-- An instruction that takes values from the stack and puts others there does the same with both,
since they agree on what it takes unless it is a pop. -/
theorem operate_agrees {i : Instr} {pops pushes : Nat} (hw : w.unit = l.unit)
    (h : l.Alike f (before a.pc) a b) (hF : l.analysis.frameAt a.pc = some F)
    (hheight : a.stack.length = F.stack.length) (hi : l.body[a.pc]? = some i)
    (he : i.stackEffect l.unit = some (pops, pushes)) (hslot : i.slot? = none) :
    Agrees l f before after (a.step w) (b.step w) := by
  obtain ⟨F', hy, hnext⟩ := hl.typing.step_at hF hi
  obtain ⟨pops', outs', he', hp, hF'⟩ := hy.stackEffect
  rw [hl.unit, he] at he'
  cases he'
  have hlive : ∀ v, v.toNat < l.locals + (F.stack.length - pops) → after a.pc v →
      before a.pc v := fun v hlt hv =>
    (ht.needs hF hi he).mpr (.of_after (fun n hn => by subst hn; cases hslot) hlt hv)
  have hnarrow := hl.narrow hF
  -- The values that are taken, and the rest.
  obtain ⟨ts, rest, ha, hts⟩ : ∃ ts rest, a.stack = ts ++ rest ∧ ts.length = pops :=
    ⟨a.stack.take pops, a.stack.drop pops, (take_append_drop _ _).symm, by simp; omega⟩
  obtain ⟨us, rest', hb, hus⟩ : ∃ us rest', b.stack = us ++ rest' ∧ us.length = pops :=
    ⟨b.stack.take pops, b.stack.drop pops, (take_append_drop _ _).symm, by
      have := h.height
      simp
      omega⟩
  have hrest : rest.length = F.stack.length - pops := by
    rw [← hheight, ha, length_append]
    omega
  have hrest' : rest.length = rest'.length := by
    have := h.height
    rw [ha, hb, length_append, length_append] at this
    omega
  have hop : i.operate w ts = i.operate w us := by
    by_cases hpop : i = .pop
    · subst hpop
      obtain ⟨rfl, _⟩ := Prod.mk.inj (Option.some.inj he)
      obtain ⟨_, rfl⟩ := length_eq_one_iff.mp hts
      obtain ⟨_, rfl⟩ := length_eq_one_iff.mp hus
      rfl
    · rw [h.top_eq ha hb (hts.trans hus.symm) (by omega) fun v h1 h2 =>
        (ht.needs hF hi he).mpr (.of_operand hslot hpop (by omega) (by omega))]
  have hcode := h.code hi
  rw [step_operate a hcode.1 hslot (hw ▸ he) hts ha,
    step_operate b hcode.2 hslot (hw ▸ he) hus hb, hop]
  have hfault : ∀ p d, a.fault p d = b.fault p d := by
    intro p d
    unfold fault
    rw [h.body.1, h.body.2, h.pc]
  have hjump : ∀ j outs, j ∈ Graph.nexts i a.pc → outs.length = outs'.length →
      Agrees l f before after (.next { a with stack := outs ++ rest, pc := j })
        (.next { b with stack := outs ++ rest', pc := j }) := by
    intro j outs hj houts
    obtain ⟨F'', hF'', hh⟩ := height_of_admits (hnext j hj)
    refine .next ⟨h.replace ha hb hrest' (fun v hlt hv => ?_) outs j, F'', hF'', ?_⟩
    · exact hlive v (hrest ▸ hlt) (ht.next hF hi hj hv)
    · show (outs ++ rest).length = _
      rw [hh, hF', length_append, length_append, length_drop, hrest, houts]
  have halike : ∀ outs, l.Alike f (after a.pc) { a with stack := outs ++ rest }
      { b with stack := outs ++ rest' } := by
    intro outs
    have hr := h.replace ha hb hrest' (fun v hlt hv => hlive v (hrest ▸ hlt) hv) outs a.pc
    exact ⟨hr.body, h.pc, hr.locals, hr.height, hr.values⟩
  cases hturn : i.operate w us with
  | fault p d => rw [Operation.step, Operation.step, hfault]; exact .stopped _
  | failure x => exact .stopped x
  | turn t outs =>
    have hleads := Instr.operate_leads (hw ▸ he) hus hturn
    cases t with
    | next =>
      show Agrees l f before after _ (.next { b with stack := outs ++ rest', pc := b.pc + 1 })
      rw [← h.pc]
      exact hjump (a.pc + 1) outs (by simp [Graph.nexts, hleads.1]) hleads.2
    | jump p =>
      refine hjump p.toNat outs ?_ hleads.2
      unfold Graph.nexts
      exact mem_append_right _ (mem_map.mpr ⟨p, hleads.1, rfl⟩)
    | call n args =>
      obtain ⟨rfl, _, rfl⟩ := hleads
      refine .call n args ⟨halike [], F, n, pops, outs'.length, hF, hi, he, ?_⟩
      show rest.length + pops = _
      omega
    | leave v => exact .done v
    | raise e => exact raise_agrees (a := { a with stack := outs ++ rest }) hl ht (halike outs) hF e

theorem load_agrees {n : UInt32} (h : l.Alike f (before a.pc) a b)
    (hF : l.analysis.frameAt a.pc = some F) (hheight : a.stack.length = F.stack.length)
    (hi : l.body[a.pc]? = some (.load n)) :
    Agrees l f before after (a.step w) (b.step w) := by
  obtain ⟨F', hy, hnext⟩ := hl.typing.step_at hF hi
  obtain ⟨hn, hF'⟩ : n.toNat < F.locals.length ∧ F'.stack.length = F.stack.length + 1 := by
    cases hy with
    | load hn _ => exact ⟨lt_of_getElem? hn, rfl⟩
  rw [hl.locals hF] at hn
  obtain ⟨hla, hlb⟩ := h.locals
  have hneeds := fun v => ht.needs (v := v) hF hi rfl
  obtain ⟨x, hx⟩ : ∃ x, item? a.locals n = some x := ⟨_, getElem?_eq_getElem (by omega)⟩
  have hx' : item? b.locals n = some x := by
    rw [item?_locals (by omega)] at hx ⊢
    rw [← hx, h.values n ((hneeds n).mpr (.inl rfl))]
  have hcode := h.code hi
  have hj : a.pc + 1 ∈ Graph.nexts (.load n) a.pc := mem_cons_self
  obtain ⟨F'', hF'', hh⟩ := height_of_admits (hnext _ hj)
  rw [step_load a hcode.1 hx, step_load b hcode.2 hx', ← h.pc]
  refine .next ⟨h.replace (nil_append _).symm (nil_append _).symm h.height
    (fun v hlt hv => ?_) [x] (a.pc + 1), F'', hF'', ?_⟩
  · exact (hneeds v).mpr (.inr ⟨by omega, ht.next hF hi hj hv⟩)
  · show a.stack.length + 1 = _
    omega

theorem store_agrees {n : UInt32} (h : l.Alike f (before a.pc) a b)
    (hF : l.analysis.frameAt a.pc = some F) (hheight : a.stack.length = F.stack.length)
    (hi : l.body[a.pc]? = some (.store n)) :
    Agrees l f before after (a.step w) (b.step w) := by
  obtain ⟨F', hy, hnext⟩ := hl.typing.step_at hF hi
  obtain ⟨hn, hF'⟩ : n.toNat < F.locals.length ∧ F.stack.length = F'.stack.length + 1 := by
    cases hy with
    | store hn => exact ⟨hn, rfl⟩
  rw [hl.locals hF] at hn
  obtain ⟨hla, hlb⟩ := h.locals
  have hnarrow := hl.narrow hF
  have hneeds := fun v => ht.needs (v := v) hF hi rfl
  obtain ⟨x, rest, ha⟩ : ∃ x rest, a.stack = x :: rest :=
    exists_cons_of_length_eq_add_one (hheight.trans hF')
  obtain ⟨y, rest', hb⟩ : ∃ y rest', b.stack = y :: rest' :=
    exists_cons_of_length_eq_add_one (h.height.symm.trans (hheight.trans hF'))
  have hlen : a.stack.length = rest.length + 1 := by rw [ha]; rfl
  have hrest : rest.length = rest'.length := by
    have := h.height
    rw [ha, hb] at this
    simpa using this
  obtain ⟨rfl⟩ : x = y := by
    have := h.top_eq (show a.stack = [x] ++ rest from ha) (show b.stack = [y] ++ rest' from hb) rfl
      (by omega) fun v h1 h2 => (hneeds v).mpr (.inl (by omega))
    simpa using this
  have hcode := h.code hi
  have hj : a.pc + 1 ∈ Graph.nexts (.store n) a.pc := mem_cons_self
  obtain ⟨F'', hF'', hh⟩ := height_of_admits (hnext _ hj)
  rw [step_store a hcode.1 ha, step_store b hcode.2 hb, ← h.pc]
  -- The local that is written need not have agreed before.
  have hr : l.Alike f (fun v => v ≠ n ∧ before (a.pc + 1) v)
      { a with stack := rest, pc := a.pc + 1 } { b with stack := rest', pc := a.pc + 1 } := by
    refine h.replace (show a.stack = [x] ++ rest from ha) (show b.stack = [x] ++ rest' from hb)
      hrest (fun v hlt hv => ?_) [] (a.pc + 1)
    exact (hneeds v).mpr (.inr ⟨hv.1, by omega, ht.next hF hi hj hv.2⟩)
  refine .next ⟨hr.set hn (fun v hne hv => ⟨hne, hv⟩) x, F'', hF'', ?_⟩
  show rest.length = _
  omega

/-- **Twins do the same in one step,** and are twins again after it. -/
theorem Twins.step (hw : w.unit = l.unit) (h : l.Twins f before a b) :
    Agrees l f before after (a.step w) (b.step w) := by
  obtain ⟨halike, F, hF, hheight⟩ := h
  obtain ⟨i, pops, pushes, hi, he, _⟩ := hl.effect hF
  cases i with
  | load n => exact load_agrees hl ht halike hF hheight hi
  | store n => exact store_agrees hl ht halike hF hheight hi
  | _ => exact operate_agrees hl ht hw halike hF hheight hi he rfl

/-- Activations that wait go on in the same way with the same answer. -/
theorem Waiting.receive (hw : w.unit = l.unit) (h : l.Waiting f after a b)
    (reply : Except Error Value) :
    Agrees l f before after (a.receive w reply) (b.receive w reply) := by
  obtain ⟨halike, F, n, pops, pushes, hF, hi, he, hheight⟩ := h
  cases reply with
  | error e =>
    unfold Activation.receive
    dsimp only
    cases e.raised? with
    | some x => exact raise_agrees hl ht halike hF x
    | none => exact .stopped _
  | ok v =>
    obtain ⟨F', hy, hnext⟩ := hl.typing.step_at hF hi
    obtain ⟨pops', pushes', he', _, hF'⟩ := hy.height
    rw [hl.unit, he] at he'
    cases he'
    obtain ⟨s, hs, hes⟩ := Option.map_eq_some_iff.mp he
    have hpushes : (delivered s.result v).length = pushes := by
      rw [← (Prod.mk.inj hes).2]
      unfold delivered
      split <;> rfl
    have hcode := halike.code hi
    have hj : a.pc + 1 ∈ Graph.nexts (.invoke n) a.pc := mem_cons_self
    obtain ⟨F'', hF'', hh⟩ := height_of_admits (hnext _ hj)
    rw [receive_ok a hcode.1 (hw ▸ hs), receive_ok b hcode.2 (hw ▸ hs),
      ← halike.pc]
    refine .next ⟨halike.replace (nil_append _).symm (nil_append _).symm halike.height
      (fun u hlt hu => ht.next hF hi hj hu) _ (a.pc + 1), F'', hF'', ?_⟩
    show (delivered s.result v ++ a.stack).length = _
    rw [hh, hF', length_append, hpushes]
    omega

/-! ## Runs side by side -/

/-- Steps that agree lead to the same run. -/
theorem Agrees.run {W : Type} {answer : W → UInt32 → List Value → Except Error Value × W}
    (hw : w.unit = l.unit) {s t : Step} (h : Agrees l f before after s t) (n : Nat) (world : W) :
    run w answer n world s = run w answer n world t := by
  induction n generalizing s t world with
  | zero => rfl
  | succ n ih =>
    cases h with
    | next h => exact ih (h.step hl ht hw) world
    | call symbol args h =>
      simp only [Activation.run]
      rw [ih (h.receive hl ht hw _) _]
    | done v => rfl
    | raised e => rfl
    | stopped x => rfl

end

/-- Two activations that go on after call `s` of a function: both behind the call with a stack as
high as its frame, or both in the same handler that covers the call with the same exception. -/
structure Resumed (f : Func) (is : List Instr) (an : Analysis) (s : Nat) (a b : Activation) :
    Prop where
  body : a.body = ⟨f, is⟩ ∧ b.body = ⟨f, is⟩
  locals : a.locals.length = f.maxLocals.toNat ∧ b.locals.length = f.maxLocals.toNat
  place :
    (a.pc = s + 1 ∧ b.pc = s + 1 ∧ ∃ F, an.frameAt (s + 1) = some F ∧
      a.stack.length = F.stack.length ∧ b.stack.length = F.stack.length) ∨
    ∃ h ∈ f.handlers, h.covers s ∧ a.pc = h.target.toNat ∧ b.pc = h.target.toNat ∧
      ∃ e, a.stack = [.exception e] ∧ b.stack = [.exception e]

/-- Two activations that make the same calls with the same arguments and come to the same value,
exception or fault, in any number of steps and whatever the calls answer. -/
def Indistinct (u : CodeUnit) (a b : Activation) : Prop :=
  ∀ w : Surroundings, w.unit = u →
    ∀ (W : Type) (answer : W → UInt32 → List Value → Except Error Value × W) (world : W)
      (steps : Nat),
      Activation.run w answer steps world (a.step w) =
        Activation.run w answer steps world (b.step w)

/-- **Positions that are not live after a call do not matter.** Let a function be split at some of
its calls and typed, with few enough locals and stack slots for 32-bit positions. Then the live
positions are found for every one of these calls that can be reached, and two activations that go on
after such a call and agree on its live positions are indistinct. -/
theorem forSites_noninterference (z : Analyzer) (f : Func) (is : List Instr) (g : Graph)
    (an : Analysis) (sites : List Nat) (hcalls : ∀ s ∈ sites, ∃ n, is[s]? = some (.invoke n))
    (hg : Graph.build f.name is f.handlers (sites.map Int.ofNat) = .ok g)
    (hz : z.analyze f is g = .ok an)
    (hn : ∀ i F, an.frameAt i = some F → f.maxLocals.toNat + F.stack.length < 2 ^ 32) :
    ∃ found, forSites { unit := z.unit, locals := f.maxLocals.toNat, body := is, analysis := an }
        sites = .ok found ∧
      (∀ s ∈ sites, ∀ F, an.frameAt s = some F → ∃ set, (s, set) ∈ found) ∧
      ∀ s set, (s, set) ∈ found → ∀ a b, Resumed f is an s a b →
        (∀ v, set.contains v → a.valueAt v = b.valueAt v) → Indistinct z.unit a b := by
  have hd := Graph.divides_of_build hg
  have hl := fits_of_analyze hd hz hn
  have hsites : ∀ s ∈ sites, s < is.length ∧ (s : Int) ∈ sites.map Int.ofNat := by
    intro s hs
    obtain ⟨n, hn⟩ := hcalls s hs
    exact ⟨(List.getElem?_eq_some_iff.mp hn).1, List.mem_map.mpr ⟨s, hs, rfl⟩⟩
  obtain ⟨E, found, hE, _, hfound, hsets, hall⟩ := hl.forSites_table hsites
  have ht := hl.table hE
  refine ⟨found, hfound, hall, ?_⟩
  intro s set hset a b hab hagree w hw W answer world steps
  obtain ⟨hs, ⟨F, hF⟩, hcontains⟩ := hsets s set hset
  obtain ⟨n, hi⟩ := hcalls s hs
  refine Agrees.run hl ht hw (Twins.step hl ht hw ?_) steps world
  rcases hab.place with ⟨hpa, hpb, F', hF', hsa, hsb⟩ | ⟨h, hh, hcov, hpa, hpb, e, hsa, hsb⟩
  · refine ⟨⟨hab.body, hpa.trans hpb.symm, hab.locals, hsa.trans hsb.symm, fun v hv => ?_⟩,
      F', hpa ▸ hF', hsa⟩
    rw [hpa] at hv
    exact hagree v ((hcontains v).mpr (ht.next hF hi List.mem_cons_self hv))
  · obtain ⟨_, _, _, _, _, hcaught⟩ := hl.typing.step hF
    obtain ⟨F', hF', hheight⟩ := height_of_admits (hcaught h hh hcov)
    refine ⟨⟨hab.body, hpa.trans hpb.symm, hab.locals, by rw [hsa, hsb], fun v hv => ?_⟩,
      F', hpa ▸ hF', by rw [hheight, hsa]; rfl⟩
    rw [hpa] at hv
    have hvalue := fun hlt => hagree v ((hcontains v).mpr (ht.caught hF hh hcov hv hlt))
    unfold Activation.valueAt Activation.cells at hvalue ⊢
    rw [hsa, hsb] at hvalue ⊢
    refine getElem?_append_agree (hab.locals.1.trans hab.locals.2.symm) fun hlt => hvalue ?_
    exact hab.locals.1 ▸ hlt

/-- Waits for a clock, and tries again with the second local set anew if that fails. -/
def pollFunc : Func :=
  { name := "poll", maxLocals := 2
    handlers := [{ start := 2, stop := 6, target := 6, cls := "", region := 0, kind := 0 }] }

/-- The body of `pollFunc`. -/
def pollBody : List Instr :=
  [.iconst 1, .store 0, .iconst 2, .store 1, .invoke 0, .ret, .pop, .load 0, .branch .zero 2, .ret]

/-- The analyzer of a unit with one symbol. -/
def pollAnalyzer : Analyzer :=
  { unit := { symbols := [{ owner := "Clock", name := "tick", params := [], result := .void }] }
    classes := ⟨builtinSuper⟩ }

/-- What the analyzer finds out about `pollBody`, which is split after its call. -/
def pollAnalysis : Analysis :=
  let start : List Ty := [.top, .top]
  let first : List Ty := [.int, .top]
  let both : List Ty := [.int, .int]
  { graph := Graph.assemble pollBody pollFunc.handlers [4]
    frames := [some ⟨start, []⟩, some ⟨start, [.int]⟩, some ⟨first, []⟩, some ⟨first, [.int]⟩,
      some ⟨both, []⟩, some ⟨both, []⟩, some ⟨first, [.ref ClassName.error]⟩, some ⟨first, []⟩,
      some ⟨first, [.int]⟩, some ⟨first, []⟩]
    entries := [some ⟨start, []⟩, some ⟨first, []⟩, some ⟨both, []⟩,
      some ⟨first, [.ref ClassName.error]⟩, some ⟨first, []⟩]
    resolutions := [] }

/-- `pollFunc` behind its call, with a value for the second local. -/
def pollActivation (n : Int64) : Activation :=
  { body := ⟨pollFunc, pollBody⟩, locals := [.int 1, .int n], stack := [], pc := 5 }

theorem forSites_noninterference_poll :
    Graph.build pollFunc.name pollBody pollFunc.handlers [4] = .ok pollAnalysis.graph ∧
      pollAnalyzer.analyze pollFunc pollBody pollAnalysis.graph = .ok pollAnalysis ∧
      Indistinct pollAnalyzer.unit (pollActivation 2) (pollActivation 3) := by
  have hbuild : Graph.build pollFunc.name pollBody pollFunc.handlers [4] =
      .ok pollAnalysis.graph := rfl
  have hanalyze : pollAnalyzer.analyze pollFunc pollBody pollAnalysis.graph =
      .ok pollAnalysis := by
    decide +kernel
  have hnarrow : ∀ o ∈ pollAnalysis.frames, ∀ F ∈ o,
      pollFunc.maxLocals.toNat + F.stack.length < 2 ^ 32 := by
    decide
  refine ⟨hbuild, hanalyze, ?_⟩
  obtain ⟨found, hfound, _, hrun⟩ := forSites_noninterference pollAnalyzer pollFunc pollBody _
    pollAnalysis [4] (fun s hs => ⟨0, by obtain rfl := List.mem_singleton.mp hs; rfl⟩) hbuild
    hanalyze fun i F hF => hnarrow (some F)
      (List.mem_of_getElem? (Option.join_eq_some_iff.mp hF)) F rfl
  -- The first local is live after the call and the second is not.
  have hlive : found = [(4, BitSet.insert ∅ 0)] := by
    have : forSites ⟨pollAnalyzer.unit, 2, pollBody, pollAnalysis⟩ [4] =
        .ok [(4, BitSet.insert ∅ 0)] := by
      decide +kernel
    exact Except.ok.inj (hfound.symm.trans this)
  refine hrun 4 (BitSet.insert ∅ 0) (by simp [hlive]) _ _
    ⟨⟨rfl, rfl⟩, ⟨rfl, rfl⟩, .inl ⟨rfl, rfl, _, rfl, rfl, rfl⟩⟩ fun v hv => ?_
  rcases BitSet.contains_insert.mp hv with rfl | hv
  · rfl
  · simp at hv

/-- Waits for a clock and returns its argument, with as many locals as there can be. -/
def wideFunc : Func :=
  { name := "wide", params := [.int], result := .int, maxLocals := 4294967295 }

/-- The body of `wideFunc`. -/
def wideBody : List Instr := [.invoke 0, .iconst 5, .iconst 6, .pop, .load 0, .retval]

/-- What the analyzer finds out about `wideBody`, which is split after its call, with some types for
the locals behind the first one. -/
def wideAnalysis (rest : List Ty) : Analysis :=
  let locals : List Ty := .int :: rest
  { graph := Graph.assemble wideBody [] [0]
    frames := [some ⟨locals, []⟩, some ⟨locals, []⟩, some ⟨locals, [.int]⟩,
      some ⟨locals, [.int, .int]⟩, some ⟨locals, [.int]⟩, some ⟨locals, [.int, .int]⟩]
    entries := [some ⟨locals, []⟩, some ⟨locals, []⟩]
    resolutions := [] }

/-- `wideFunc` behind its call, with an argument. -/
def wideActivation (n : Int64) (rest : List Value) : Activation :=
  { body := ⟨wideFunc, wideBody⟩, locals := .int n :: rest, stack := [], pc := 1 }

theorem analyze_wide :
    pollAnalyzer.analyze wideFunc wideBody (Graph.assemble wideBody [] [0]) =
      .ok (wideAnalysis (replicate 4294967294 .top)) := by
  have hentry (n : Nat) :
      Subject.entryFrame [.int] (n + 1) = ⟨.int :: replicate n .top, []⟩ := by
    simp [Subject.entryFrame]
  have hrounds (s : Subject) (n : Nat) : ∃ k, s.enoughRounds n = k + 3 := by
    refine Nat.exists_eq_add_of_le' (Nat.le_trans (by decide : 3 ≤ 1 * 2 * Nat.pow 2 40) ?_)
    exact Nat.mul_le_mul_right _ (Nat.mul_le_mul (by omega) (by omega))
  unfold Analyzer.analyze
  rw [show Subject.entryFrame wideFunc.params wideFunc.maxLocals.toNat = _ from hentry 4294967294]
  -- The list is too long to be looked at, and there is no need to.
  generalize replicate 4294967294 Ty.top = rest
  unfold Subject.propagate
  obtain ⟨k, hk⟩ := hrounds (pollAnalyzer.subject wideFunc wideBody
    (Graph.assemble wideBody [] [0])) (Ty.int :: rest).length
  dsimp only
  rw [hk]
  rfl

/-- In a function with as many locals as there can be, the second stack slot has the number of the first
local. So that local gets lost below a `pop`, although it is returned in the end. -/
theorem interference_wide : ∃ g an set a b,
    Graph.build wideFunc.name wideBody wideFunc.handlers [0] = .ok g ∧
    pollAnalyzer.analyze wideFunc wideBody g = .ok an ∧
    forSites { unit := pollAnalyzer.unit, locals := wideFunc.maxLocals.toNat, body := wideBody
               analysis := an } [0] = .ok [(0, set)] ∧
    Resumed wideFunc wideBody an 0 a b ∧ (∀ v, set.contains v → a.valueAt v = b.valueAt v) ∧
    ¬ Indistinct pollAnalyzer.unit a b := by
  have hsites : forSites ⟨pollAnalyzer.unit, wideFunc.maxLocals.toNat, wideBody,
      wideAnalysis (replicate 4294967294 .top)⟩ [0] = .ok [(0, (BitSet.insert ∅ 0).below 0)] := by
    decide +kernel
  have hlength (n : Int64) : (wideActivation n (replicate 4294967294 .null)).locals.length =
      wideFunc.maxLocals.toNat := by
    rw [wideActivation, length_cons, length_replicate]
    rfl
  generalize replicate 4294967294 Value.null = rest at hlength
  have hrun (w : Surroundings) (n : Int64) : Activation.run w
      (fun (_ : Unit) _ _ => (.ok .null, ())) 5 () ((wideActivation n rest).step w) =
        ([], .done (.int n)) := rfl
  refine ⟨_, _, _, wideActivation 1 rest, wideActivation 2 rest, rfl, analyze_wide, hsites,
    ⟨⟨rfl, rfl⟩, ⟨hlength 1, hlength 2⟩, .inl ⟨rfl, rfl, _, rfl, rfl, rfl⟩⟩, fun v hv => ?_,
    fun h => ?_⟩
  · simp at hv
  · have := h ⟨pollAnalyzer.unit, ⟨builtinSuper⟩, fun _ => "", fun _ => .ok ""⟩ rfl Unit
      (fun _ _ _ => (.ok .null, ())) () 5
    rw [hrun, hrun] at this
    cases this

end Liveness

end Resumable
