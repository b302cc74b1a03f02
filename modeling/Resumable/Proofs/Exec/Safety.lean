import Resumable.Exec.Program
import Resumable.Proofs.CodeUnit.Body
import Resumable.Proofs.CodeUnit.StackBound
import Resumable.Proofs.Emission.Verification
import Resumable.Proofs.Exec.Operate
import Resumable.Proofs.Instr.Codec
import Resumable.Proofs.Typing.Body

/-!
# Verified code is safe

A function that verification accepts runs as its frames say. Wherever it gets to, the stack is as high
as the frame there and no higher than declared, and what has the type of integers is an integer. So
no instruction finds the stack empty or misses an integer, and control stays in the body. Other types
promise less: a reference may be to anything, and a field may be looked for in the wrong record.
-/

namespace Resumable

open Activation List

/-! ## Values of types -/

/-- A value whose records, at any depth, hold integers where their layouts say so. -/
inductive Value.Sound (u : CodeUnit) : Value → Prop
  | record {n : UInt32} {fs : List Value}
      (ints : ∀ l, item? u.records n = some l → ∀ k : Nat, l.fields[k]? = some .int →
        ∃ m, fs[k]? = some (.int m))
      (fields : ∀ v ∈ fs, Sound u v) : Sound u (.record n fs)
  | other {v : Value} (h : ∀ n fs, v ≠ .record n fs) : Sound u v

/-- A value of a type. -/
structure Value.Has (u : CodeUnit) (v : Value) (t : Ty) : Prop where
  sound : v.Sound u
  int : t = .int → ∃ n, v = .int n

/-- The locals and the stack of an activation have the types of a frame. -/
structure Activation.Holds (u : CodeUnit) (a : Activation) (F : Frame) : Prop where
  locals : List.Forall₂ (Value.Has u) a.locals F.locals
  stack : List.Forall₂ (Value.Has u) a.stack F.stack

section

variable {u : CodeUnit} {v : Value} {t t' : Ty} {I : Text → Text → Prop}

theorem Value.has_int (n : Int64) : Value.Has u (.int n) t := ⟨.other (by simp), fun _ => ⟨n, rfl⟩⟩

/-- A value has every type but that of integers if its records are right. -/
theorem Value.Sound.has (hv : v.Sound u) (ht : t ≠ .int) : v.Has u t := ⟨hv, fun h => absurd h ht⟩

theorem Value.Has.under (hv : v.Has u t) (h : t.Under I t') : v.Has u t' := by
  cases h with
  | refl => exact hv
  | null | ref => exact hv.sound.has (by simp)

theorem Activation.Holds.under {a : Activation} {F G : Frame} (h : a.Holds u F)
    (hFG : F.Under I G) : a.Holds u G := by
  refine ⟨forall₂_comp h.locals hFG.locals fun v t t' hv ht => ?_,
    forall₂_comp h.stack hFG.stack fun v t t' hv ht => hv.under ht⟩
  rcases ht with rfl | ht
  · exact hv.sound.has (by simp)
  · exact hv.under ht

theorem Value.sound_record {n : UInt32} {l : Layout} {ctx : TypingContext} {ts : List Ty}
    {vs : List Value} (hl : item? u.records n = some l) (ht : Transfer.Accepts ctx ts l.fields)
    (hv : Forall₂ (Value.Has u) vs ts) : Value.Sound u (.record n vs.reverse) := by
  have hall : Forall₂ (fun v t => Value.Has u v t) vs.reverse l.fields := by
    rw [← reverse_reverse l.fields, forall₂_reverse_iff]
    refine forall₂_comp hv ht fun v t want hv ha => ⟨hv.sound, fun h => hv.int ?_⟩
    rw [h] at ha
    cases t <;> simp [Hierarchy.assignable] at ha
    rfl
  refine .record (fun l' hl' k hk => ?_) fun v hv => ?_
  · obtain rfl := Option.some.inj (hl.symm.trans hl')
    obtain ⟨v, hv, hhas⟩ := forall₂_getElem? hall hk
    obtain ⟨m, rfl⟩ := hhas.int rfl
    exact ⟨m, hv⟩
  · obtain ⟨t, -, h⟩ := forall₂_exists_mem hall hv
    exact h.sound

end

/-! ## One instruction -/

/-- What an operation may leave if its instruction yields frame `F`, where `rest` is the stack below
what it took. It may also find no such field, or no text for what is thrown. -/
inductive Operation.Suits (w : Surroundings) (i : Instr) (F : Frame) (rest : List Value) :
    Operation → Prop
  | next {outs : List Value} (h : List.Forall₂ (Value.Has w.unit) (outs ++ rest) F.stack) :
      Suits w i F rest (.turn .next outs)
  | jump {p : UInt32} {outs : List Value}
      (h : List.Forall₂ (Value.Has w.unit) (outs ++ rest) F.stack) :
      Suits w i F rest (.turn (.jump p) outs)
  | call {n : UInt32} {args : List Value} {s : Symbol} {st : List Ty}
      (hs : item? w.unit.symbols n = some s) (hF : F.stack = s.result.pushed st)
      (h : List.Forall₂ (Value.Has w.unit) rest st) : Suits w i F rest (.turn (.call n args) [])
  | leave {v : Value} {outs : List Value} : Suits w i F rest (.turn (.leave v) outs)
  | raise {e : Exception} {outs : List Value} : Suits w i F rest (.turn (.raise e) outs)
  | otherLayout {n k : UInt32} (hi : i = .recget n k) :
      Suits w i F rest (.fault .typeMismatch "recget on a record of another layout")
  | noField {n k : UInt32} (hi : i = .recget n k) : Suits w i F rest (.failure .outOfRange)
  | noText {v : Value} {x : Failure} (hi : i = .raise) (hx : w.format v = .error x) :
      Suits w i F rest (.failure x)

/-- **Instructions do what their types say,** as far as they work on the stack. -/
theorem Instr.Yields.operate_suits {ctx : TypingContext} {w : Surroundings} {i : Instr}
    {F F' : Frame} {stack : List Value} {locals : UInt32} (hu : ctx.unit = w.unit)
    (hy : i.Yields ctx F F') (hslot : i.slot? = none) (hrefers : i.Refers w.unit locals)
    (hs : Forall₂ (Value.Has w.unit) stack F.stack) :
    ∃ ts rest pops pushes, stack = ts ++ rest ∧ i.stackEffect w.unit = some (pops, pushes) ∧
      ts.length = pops ∧ (i.operate w ts).Suits w i F' rest := by
  have hcons {t : Ty} {st : List Ty} (hs : Forall₂ (Value.Has w.unit) stack (t :: st)) :
      ∃ v rest, stack = v :: rest ∧ v.Has w.unit t ∧
        Forall₂ (Value.Has w.unit) rest st := by
    obtain ⟨v, rest, hv, hrest, heq⟩ := forall₂_cons_right_iff.mp hs
    exact ⟨v, rest, heq, hv, hrest⟩
  have hpair {t t' : Ty} {st : List Ty}
      (hs : Forall₂ (Value.Has w.unit) stack (t :: t' :: st)) :
      ∃ v v' rest, stack = [v, v'] ++ rest ∧ v.Has w.unit t ∧ v'.Has w.unit t' ∧
        Forall₂ (Value.Has w.unit) rest st := by
    obtain ⟨v, upper, hv, hupper, rfl⟩ := forall₂_cons_right_iff.mp hs
    obtain ⟨v', rest, hv', hrest, rfl⟩ := forall₂_cons_right_iff.mp hupper
    exact ⟨v, v', rest, rfl, hv, hv', hrest⟩
  have hplain {v : Value} {t : Ty} (h : ∀ n fs, v ≠ .record n fs) (ht : t ≠ .int) :
      v.Has w.unit t := Value.Sound.has (.other h) ht
  have hjump {n : Bool} {p : UInt32} {F : Frame} {rest : List Value}
      (h : Forall₂ (Value.Has w.unit) rest F.stack) :
      (Operation.turn (jumpIf n p) []).Suits w i F rest := by
    unfold jumpIf
    split
    · exact .jump h
    · exact .next h
  cases hy with
  | nop => exact ⟨[], stack, 0, 0, rfl, rfl, rfl, .next hs⟩
  | iconst => exact ⟨[], stack, 0, 1, rfl, rfl, rfl, .next (.cons (Value.has_int _) hs)⟩
  | sconst =>
    obtain ⟨t, ht⟩ := hrefers
    refine ⟨[], stack, 0, 1, rfl, rfl, rfl, ?_⟩
    show (Operation.withEntry w.unit.strings _ _).Suits _ _ _ _
    rw [Operation.withEntry, ht]
    exact .next (.cons (hplain (by simp) (by simp)) hs)
  | null => exact ⟨[], stack, 0, 1, rfl, rfl, rfl, .next (.cons (hplain (by simp) (by simp)) hs)⟩
  | load | store => cases hslot
  | pop =>
    obtain ⟨v, rest, rfl, -, hrest⟩ := hcons hs
    exact ⟨[v], rest, 1, 0, rfl, rfl, rfl, .next hrest⟩
  | dup =>
    obtain ⟨v, rest, rfl, hv, hrest⟩ := hcons hs
    exact ⟨[v], rest, 1, 2, rfl, rfl, rfl, .next (.cons hv (.cons hv hrest))⟩
  | swap =>
    obtain ⟨v, v', rest, rfl, hv, hv', hrest⟩ := hpair hs
    exact ⟨[v, v'], rest, 2, 2, rfl, rfl, rfl, .next (.cons hv' (.cons hv hrest))⟩
  | arith =>
    obtain ⟨v, v', rest, rfl, hv, hv', hrest⟩ := hpair hs
    obtain ⟨⟨n, rfl⟩, m, rfl⟩ := And.intro (hv.int rfl) (hv'.int rfl)
    exact ⟨[.int n, .int m], rest, 2, 1, rfl, rfl, rfl, .next (.cons (Value.has_int _) hrest)⟩
  | goto => exact ⟨[], stack, 0, 0, rfl, rfl, rfl, .jump hs⟩
  | zero | nonzero =>
    obtain ⟨v, rest, rfl, hv, hrest⟩ := hcons hs
    obtain ⟨n, rfl⟩ := hv.int rfl
    exact ⟨[.int n], rest, 1, 0, rfl, rfl, rfl, hjump hrest⟩
  | less =>
    obtain ⟨v, v', rest, rfl, hv, hv', hrest⟩ := hpair hs
    obtain ⟨⟨n, rfl⟩, m, rfl⟩ := And.intro (hv.int rfl) (hv'.int rfl)
    exact ⟨[.int n, .int m], rest, 2, 0, rfl, rfl, rfl, hjump hrest⟩
  | ifnull | ifnonnull =>
    obtain ⟨v, rest, rfl, -, hrest⟩ := hcons hs
    exact ⟨[v], rest, 1, 0, rfl, rfl, rfl, hjump hrest⟩
  | switch =>
    obtain ⟨v, rest, rfl, hv, hrest⟩ := hcons hs
    obtain ⟨n, rfl⟩ := hv.int rfl
    exact ⟨[.int n], rest, 1, 0, rfl, rfl, rfl, .jump hrest⟩
  | @invoke n s ts ls st hsym hp =>
    obtain ⟨vs, rest, rfl, hvs, hrest⟩ := forall₂_append_right hs
    rw [hu] at hsym
    refine ⟨vs, rest, s.params.length, if s.result = .void then 0 else 1, rfl, ?_, ?_,
      .call hsym rfl hrest⟩
    · show (item? w.unit.symbols n).map _ = _
      rw [hsym]
      rfl
    · rw [hvs.length_eq, hp.length_eq, length_reverse]
  | checkcast hc _ =>
    obtain ⟨v, rest, rfl, hv, hrest⟩ := hcons hs
    rw [hu] at hc
    refine ⟨[v], rest, 1, 1, rfl, rfl, rfl, ?_⟩
    show (Operation.withEntry w.unit.strings _ _).Suits _ _ _ _
    rw [Operation.withEntry, hc]
    dsimp only
    split
    · exact .next (.cons (hv.sound.has (by simp)) hrest)
    · exact .raise
  | instanceof =>
    obtain ⟨c, hc⟩ := hrefers
    obtain ⟨v, rest, rfl, hv, hrest⟩ := hcons hs
    refine ⟨[v], rest, 1, 1, rfl, rfl, rfl, ?_⟩
    show (Operation.withEntry w.unit.strings _ _).Suits _ _ _ _
    rw [Operation.withEntry, hc]
    exact .next (.cons (Value.has_int _) hrest)
  | @raise t ls st _ =>
    obtain ⟨v, rest, rfl, -, hrest⟩ := hcons hs
    refine ⟨[v], rest, 1, 0, rfl, rfl, rfl, ?_⟩
    have hother : (Operation.withText w v fun text =>
        .turn (.raise (.ofText ("throw of non-error value " ++ text))) []).Suits w .raise ⟨ls, st⟩
          rest := by
      unfold Operation.withText
      cases hx : w.format v with
      | error x => exact .noText rfl hx
      | ok text => exact .raise
    cases v with
    | exception e => exact .raise
    | _ => exact hother
  | ret => exact ⟨[], stack, 0, 0, rfl, rfl, rfl, .leave⟩
  | retval =>
    obtain ⟨v, rest, rfl, -, -⟩ := hcons hs
    exact ⟨[v], rest, 1, 0, rfl, rfl, rfl, .leave⟩
  | @newrec n l ts ls st hl hp =>
    obtain ⟨vs, rest, rfl, hvs, hrest⟩ := forall₂_append_right hs
    rw [hu] at hl
    refine ⟨vs, rest, l.fields.length, 1, rfl, ?_, ?_,
      .next (.cons ((Value.sound_record hl hp hvs).has (by simp)) hrest)⟩
    · show (item? w.unit.records n).map _ = _
      rw [hl]
      rfl
    · rw [hvs.length_eq, hp.length_eq, length_reverse]
  | @recget n k l t c ls st _ hl ht =>
    obtain ⟨v, rest, rfl, hv, hrest⟩ := hcons hs
    rw [hu] at hl
    refine ⟨[v], rest, 1, 1, rfl, rfl, rfl, ?_⟩
    cases v with
    | noRecord => exact .noField rfl
    | record layout fields =>
      show (ite _ _ _ : Operation).Suits _ _ _ _
      split
      next heq =>
        subst heq
        unfold Operation.withEntry
        cases hfield : item? fields k with
        | none => exact .noField rfl
        | some x =>
          cases hv.sound with
          | other h => exact absurd rfl (h _ _)
          | record ints hfields =>
            refine .next (.cons ⟨hfields x (mem_of_getElem? hfield), ?_⟩ hrest)
            rintro rfl
            obtain ⟨m, hm⟩ := ints l hl k.toNat ht
            exact ⟨m, Option.some.inj (hfield.symm.trans hm)⟩
      next => exact .otherLayout rfl
    | _ => exact .otherLayout rfl

/-! ## Runs -/

/-- An answer to the call of a symbol that is an integer if the symbol says so. A call may also fail
with any error. -/
def CodeUnit.Answers (u : CodeUnit) (n : UInt32) : Except Error Value → Prop
  | .ok v => v.received.Sound u ∧
    ∀ s, item? u.symbols n = some s → s.result = .int → ∃ k, v.received = .int k
  | .error _ => True

/-- Where an activation gets in some steps, where calls are answered in any way and the store may
change in between. -/
inductive Activation.Runs (p : Program) : Activation → Activation → Prop
  | refl {a : Activation} : Runs p a a
  | step {a b c : Activation} (s : Store) (h : a.step (p.surroundings s) = .next b)
      (rest : Runs p b c) : Runs p a c
  | call {a b c d : Activation} {n : UInt32} {args : List Value} (s s' : Store)
      (reply : Except Error Value) (h : a.step (p.surroundings s) = .call n args b)
      (hreply : p.unit.Answers n reply) (h' : b.receive (p.surroundings s') reply = .next c)
      (rest : Runs p c d) : Runs p a d

namespace Safety

variable {ctx : TypingContext} {f : Func} {is : List Instr} {entry : Frame}
  {φ : Nat → Option Frame} {η : Nat → Option Nat} {bound : Nat}

/-- An activation of a function that is as the frames and the heights of its body say. -/
structure OnTrack (u : CodeUnit) (f : Func) (is : List Instr) (φ : Nat → Option Frame)
    (η : Nat → Option Nat) (a : Activation) : Prop where
  body : a.body = ⟨f, is⟩
  frame : ∃ F, φ a.pc = some F ∧ a.Holds u F
  height : η a.pc = some a.stack.length

/-- An activation that waits for the answer of a call. -/
structure Awaits (ctx : TypingContext) (f : Func) (is : List Instr) (φ : Nat → Option Frame)
    (η : Nat → Option Nat) (n : UInt32) (a : Activation) : Prop where
  body : a.body = ⟨f, is⟩
  code : is[a.pc]? = some (.invoke n)
  frame : ∃ F F' s st, φ a.pc = some F ∧ η a.pc = some F.stack.length ∧
    (Instr.invoke n).Yields ctx F F' ∧ item? ctx.unit.symbols n = some s ∧
    F'.stack = s.result.pushed st ∧ List.Forall₂ (Value.Has ctx.unit) a.locals F'.locals ∧
    List.Forall₂ (Value.Has ctx.unit) a.stack st

/-- What a step of activation `a` may come to. -/
inductive Proceeds (ctx : TypingContext) (f : Func) (is : List Instr) (φ : Nat → Option Frame)
    (η : Nat → Option Nat) (w : Surroundings) (a : Activation) : Step → Prop
  | next {b : Activation} (h : OnTrack ctx.unit f is φ η b) : Proceeds ctx f is φ η w a (.next b)
  | call {n : UInt32} {args : List Value} {b : Activation} (h : Awaits ctx f is φ η n b) :
      Proceeds ctx f is φ η w a (.call n args b)
  | done (v : Value) : Proceeds ctx f is φ η w a (.done v)
  | raised (e : Exception) : Proceeds ctx f is φ η w a (.raised e)
  | otherLayout {n k : UInt32} (hi : is[a.pc]? = some (.recget n k)) :
      Proceeds ctx f is φ η w a
        (.stopped (a.fault .typeMismatch "recget on a record of another layout"))
  | noField {n k : UInt32} (hi : is[a.pc]? = some (.recget n k)) :
      Proceeds ctx f is φ η w a (.stopped .outOfRange)
  | noText {v : Value} {x : Failure} (hi : is[a.pc]? = some .raise)
      (hx : w.format v = .error x) : Proceeds ctx f is φ η w a (.stopped x)

section

variable (ht : Typing (fun _ _ => True) ctx is f.handlers entry φ)
  (hη : HeightsFit ctx.unit is f.handlers η bound) {w : Surroundings} {a b : Activation}
  {i : Instr} {F F' : Frame}

include ht hη

/-- Control is on track where an instruction leads with what it yields. -/
theorem land (hi : is[a.pc]? = some i) (hF : φ a.pc = some F) (hy : i.Yields ctx F F')
    (hheight : η a.pc = some F.stack.length) (hbody : b.body = ⟨f, is⟩)
    (hnext : b.pc ∈ Graph.nexts i a.pc) (hb : b.Holds ctx.unit F') :
    OnTrack ctx.unit f is φ η b := by
  obtain ⟨i', F'', hi', hy', hadmits, -⟩ := ht.step hF
  obtain rfl := Option.some.inj (hi.symm.trans hi')
  obtain rfl := hy.unique hy'
  obtain ⟨G, hG, hunder⟩ := hadmits b.pc hnext
  refine ⟨hbody, ⟨G, hG, hb.under hunder⟩, ?_⟩
  obtain ⟨i', pops, pushes, hi', heffect, -, hη'⟩ := hη.next hheight
  obtain rfl := Option.some.inj (hi.symm.trans hi')
  obtain ⟨pops', pushes', heffect', -, hlen⟩ := hy.height
  cases heffect.symm.trans heffect'
  rw [hη' b.pc hnext, hb.stack.length_eq, hlen]

/-- A handler is entered with what it expects. -/
theorem raise_proceeds (hbody : a.body = ⟨f, is⟩) (hF : φ a.pc = some F)
    (hlocals : Forall₂ (Value.Has ctx.unit) a.locals F.locals) (e : Exception)
    (origin : Activation) : Proceeds ctx f is φ η w origin (a.raise w e) := by
  unfold raise
  split
  next h hfind =>
    have hmem := mem_of_find?_eq_some hfind
    have htakes := find?_some hfind
    rw [hbody] at hmem
    obtain ⟨_, _, _, _, _, hcaught⟩ := ht.step hF
    unfold takes at htakes
    rw [Bool.and_eq_true] at htakes
    obtain ⟨G, hG, hunder⟩ := hcaught h hmem htakes.1
    refine .next ⟨hbody, ⟨G, hG, Holds.under (F := F.caught h.cls) ⟨hlocals, ?_⟩ hunder⟩,
      hη.caught h hmem⟩
    exact .cons (Value.Sound.has (.other (by simp)) (by simp)) .nil
  next => exact .raised e

/-- An operation that suits what its instruction yields keeps an activation on track. -/
theorem suits_proceeds (hw : w.unit = ctx.unit) (hbody : a.body = ⟨f, is⟩)
    (hi : is[a.pc]? = some i) (hF : φ a.pc = some F) (hy : i.Yields ctx F F')
    (hslot : i.slot? = none) (hheight : η a.pc = some F.stack.length)
    (hlocals : Forall₂ (Value.Has ctx.unit) a.locals F.locals)
    {ts rest : List Value} {pops pushes : Nat}
    (heffect : i.stackEffect w.unit = some (pops, pushes)) (hts : ts.length = pops)
    (hsuits : (i.operate w ts).Suits w i F' rest) :
    Proceeds ctx f is φ η w a ((i.operate w ts).step w a rest) := by
  have hlocals' : Forall₂ (Value.Has ctx.unit) a.locals F'.locals := by
    rwa [hy.locals_eq fun n hn => by rw [hn] at hslot; cases hslot]
  have hleads {t : Turn} {outs : List Value} (h : i.operate w ts = .turn t outs) :=
    Instr.operate_leads heffect hts h
  generalize hop : i.operate w ts = op at hsuits ⊢
  cases hsuits with
  | next h =>
    obtain ⟨hfalls, -⟩ := hleads hop
    refine .next (land ht hη hi hF hy hheight hbody ?_ ⟨hlocals', hw ▸ h⟩)
    exact mem_append_left _ (by rw [if_pos hfalls]; exact mem_singleton.mpr rfl)
  | @jump p outs h =>
    obtain ⟨hp, -⟩ := hleads hop
    refine .next (land ht hη hi hF hy hheight hbody ?_ ⟨hlocals', hw ▸ h⟩)
    exact mem_append_right _ (mem_map.mpr ⟨p, hp, rfl⟩)
  | call hs hF' h =>
    obtain ⟨rfl, -, -⟩ := hleads hop
    exact .call ⟨hbody, hi, F, F', _, _, hF, hheight, hy, hw ▸ hs, hF', hlocals', hw ▸ h⟩
  | leave => exact .done _
  | raise => exact raise_proceeds ht hη hbody hF hlocals _ a
  | otherLayout hrec => exact .otherLayout (hrec ▸ hi)
  | noField hrec => exact .noField (hrec ▸ hi)
  | noText hraise hx => exact .noText (hraise ▸ hi) hx

/-- **A step from where all is on track** leads to such a place, hands out a call or ends. -/
theorem OnTrack.step (hw : w.unit = ctx.unit)
    (hrefers : ∀ i ∈ is, i.Refers ctx.unit f.maxLocals) (ha : OnTrack ctx.unit f is φ η a) :
    Proceeds ctx f is φ η w a (a.step w) := by
  obtain ⟨F, hF, hholds⟩ := ha.frame
  have hheight : η a.pc = some F.stack.length := ha.height.trans (congrArg some hholds.stack.length_eq)
  obtain ⟨i, F', hi, hy, -, -⟩ := ht.step hF
  have hcode : a.body.code[a.pc]? = some i := by
    rw [ha.body]
    exact hi
  have hnext (hfalls : i.fallsThrough) : a.pc + 1 ∈ Graph.nexts i a.pc :=
    mem_append_left _ (by rw [if_pos hfalls]; exact mem_singleton.mpr rfl)
  by_cases hslot : i.slot? = none
  · obtain ⟨ts, rest, pops, pushes, hstack, heffect, hts, hsuits⟩ := hy.operate_suits hw.symm hslot
      (hw ▸ hrefers i (mem_of_getElem? hi)) (hw ▸ hholds.stack)
    rw [a.step_operate hcode hslot heffect hts hstack]
    exact suits_proceeds ht hη hw ha.body hi hF hy hslot hheight hholds.locals heffect hts hsuits
  · cases hy with
    | @load n t ls st hl hu =>
      obtain ⟨v, hv, hhas⟩ := forall₂_getElem? hholds.locals hl
      rw [a.step_load hcode hv]
      exact .next (land ht hη hi hF (.load hl hu) hheight ha.body (hnext rfl)
        ⟨hholds.locals, .cons hhas hholds.stack⟩)
    | @store n t ls st hn =>
      obtain ⟨v, rest, hv, hrest, hstack⟩ := forall₂_cons_right_iff.mp hholds.stack
      rw [a.step_store hcode hstack]
      exact .next (land ht hη hi hF (.store hn) hheight ha.body (hnext rfl)
        ⟨forall₂_set hholds.locals n.toNat hv, hrest⟩)
    | _ => exact absurd rfl hslot

/-- **An answer that is right for its call** puts an activation back on track, unless the call ends
it. -/
theorem Awaits.receive {n : UInt32} (hw : w.unit = ctx.unit) (ha : Awaits ctx f is φ η n a)
    {reply : Except Error Value} (hreply : ctx.unit.Answers n reply)
    (h : a.receive w reply = .next b) : OnTrack ctx.unit f is φ η b := by
  obtain ⟨F, F', s, st, hF, hheight, hy, hs, hF', hlocals, hstack⟩ := ha.frame
  have hcode : a.body.code[a.pc]? = some (.invoke n) := by
    rw [ha.body]
    exact ha.code
  cases reply with
  | ok v =>
    rw [a.receive_ok hcode (hw ▸ hs)] at h
    cases h
    refine land ht hη ha.code hF hy hheight ha.body
      (mem_append_left _ (mem_singleton.mpr rfl)) ⟨hlocals, ?_⟩
    rw [hF']
    unfold delivered Ty.pushed
    split
    · exact hstack
    · exact .cons ⟨hreply.1, hreply.2 s hs⟩ hstack
  | error e =>
    have hlocals' : Forall₂ (Value.Has ctx.unit) a.locals F.locals := by
      rwa [← hy.locals_eq fun n hn => by cases hn]
    unfold Activation.receive at h
    dsimp only at h
    split at h
    next x _ =>
      have hraise := raise_proceeds ht hη (w := w) ha.body hF hlocals' x a
      rw [h] at hraise
      cases hraise with
      | next hb => exact hb
    next => cases h

/-- A run stays on track. -/
theorem OnTrack.runs {p : Program} (hp : p.unit = ctx.unit)
    (hrefers : ∀ i ∈ is, i.Refers ctx.unit f.maxLocals) (ha : OnTrack ctx.unit f is φ η a)
    (h : a.Runs p b) : OnTrack ctx.unit f is φ η b := by
  induction h with
  | refl => exact ha
  | @step a b c s hstep _ ih =>
    have := ha.step ht hη (w := p.surroundings s) hp hrefers
    rw [hstep] at this
    cases this with
    | next hb => exact ih hb
  | @call a b c d n args s s' reply hstep hreply hreceive _ ih =>
    have := ha.step ht hη (w := p.surroundings s) hp hrefers
    rw [hstep] at this
    cases this with
    | call hb =>
      exact ih (hb.receive ht hη (w := p.surroundings s') hp (hp ▸ hreply) hreceive)

end

end Safety

/-! ## Texts of values -/

namespace Store

variable {s : Store} {v : Value}

theorem fieldText_ne_error {text : Nat → Attempt Text} (ht : ∀ n e, text n ≠ .error (.error e))
    (v : Value) (e : Error) : fieldText text v ≠ .error (.error e) := by
  cases v with
  | future n =>
    unfold fieldText
    dsimp only
    split
    · simp
    · exact ht n e
  | _ => simp [fieldText]

theorem valueText_ne_error {text : Nat → Attempt Text} (ht : ∀ n e, text n ≠ .error (.error e))
    (v : Value) (e : Error) : s.valueText text v ≠ .error (.error e) := by
  cases v with
  | record layout fields =>
    intro h
    change (fields.mapM (fieldText text) >>= _) = _ at h
    cases hm : fields.mapM (fieldText text) with
    | ok texts =>
      rw [hm] at h
      cases h
    | error x =>
      obtain ⟨v, -, hv⟩ := exists_of_mapM_eq_error hm
      rw [hm] at h
      cases h
      exact fieldText_ne_error ht v e hv
  | future n => exact ht n e
  | _ => simp [valueText, fieldText]

theorem futureText_ne_error (depth n : Nat) (e : Error) :
    s.futureText depth n ≠ .error (.error e) := by
  induction depth generalizing n e with
  | zero => simp [futureText]
  | succ depth ih =>
    intro h
    unfold futureText at h
    split at h
    · cases h
    split at h
    · cases h
    · cases h
    next v _ =>
      cases hv : s.valueText (s.futureText depth) v with
      | ok text =>
        rw [hv] at h
        cases h
      | error x =>
        rw [hv] at h
        cases h
        exact valueText_ne_error ih v e hv

/-- A value that has no text is no fault of the program. -/
theorem format_ne_error (v : Value) (e : Error) : s.format v ≠ .error (.error e) :=
  valueText_ne_error (futureText_ne_error _) v e

end Store

/-! ## Safety -/

/-- What holds of an activation wherever it gets to, given the frames of its body. -/
structure Activation.Safe (p : Program) (f : Func) (is : List Instr) (an : Analysis)
    (a : Activation) : Prop where
  /-- Control is in the body. -/
  inside : a.pc < is.length
  /-- The stack is as high as the frame, and no higher than declared. -/
  height : ∃ F, an.frameAt a.pc = some F ∧ a.stack.length = F.stack.length ∧
    a.locals.length = F.locals.length
  bounded : a.stack.length ≤ f.maxStack.toNat
  /-- Slots with the type of integers hold integers. -/
  localInts : ∀ F (k : Nat), an.frameAt a.pc = some F → F.locals[k]? = some Ty.int →
    ∃ n, a.locals[k]? = some (Value.int n)
  stackInts : ∀ F (k : Nat), an.frameAt a.pc = some F → F.stack[k]? = some Ty.int →
    ∃ n, a.stack[k]? = some (Value.int n)
  /-- Locals that are read or written are there. -/
  slots : ∀ i n, is[a.pc]? = some i → i.slot? = some n → n.toNat < a.locals.length
  /-- A step fails only if it looks for a field in the wrong record, or throws a value that has no
  text. -/
  stops : ∀ s x, a.step (p.surroundings s) = .stopped x →
    (∃ n k, is[a.pc]? = some (.recget n k) ∧
      (x = a.fault .typeMismatch "recget on a record of another layout" ∨ x = .outOfRange)) ∨
    is[a.pc]? = some .raise ∧ ∀ e, x ≠ .error e

namespace Safety

variable {a : Analyzer} {f : Func} {is : List Instr} {g : Graph} {an : Analysis} {p : Program}
  {η : Nat → Option Nat} {bound : Nat} {b : Activation}

/-- What is on track is safe. -/
theorem OnTrack.safe
    (ht : Typing (fun _ _ => True) (a.context f) is f.handlers (Analyzer.entryFrame f)
      an.frameAt)
    (hη : HeightsFit a.unit is f.handlers η bound) (hbound : bound ≤ f.maxStack.toNat)
    (hp : p.unit = a.unit) (hrefers : ∀ i ∈ is, i.Refers a.unit f.maxLocals)
    (hb : OnTrack a.unit f is an.frameAt η b) : b.Safe p f is an := by
  obtain ⟨F, hF, hholds⟩ := hb.frame
  obtain ⟨i, F', hi, hy, -, -⟩ := ht.step hF
  have hthis {G : Frame} (hG : an.frameAt b.pc = some G) : b.Holds a.unit G := by
    cases hF.symm.trans hG
    exact hholds
  refine ⟨lt_of_getElem? hi,
    ⟨F, hF, hholds.stack.length_eq, hholds.locals.length_eq⟩,
    Nat.le_trans (hη.below hb.height) hbound, fun G k hG hk => ?_, fun G k hG hk => ?_,
    fun i' n hi' hn => ?_, fun s x hx => ?_⟩
  · obtain ⟨v, hv, hhas⟩ := forall₂_getElem? (hthis hG).locals hk
    obtain ⟨n, rfl⟩ := hhas.int rfl
    exact ⟨n, hv⟩
  · obtain ⟨v, hv, hhas⟩ := forall₂_getElem? (hthis hG).stack hk
    obtain ⟨n, rfl⟩ := hhas.int rfl
    exact ⟨n, hv⟩
  · cases hi.symm.trans hi'
    rw [hholds.locals.length_eq]
    cases hy with
    | load hl _ =>
      cases hn
      exact lt_of_getElem? hl
    | store hl =>
      cases hn
      exact hl
    | _ => cases hn
  · have hstep := hb.step ht hη (w := p.surroundings s) hp hrefers
    rw [hx] at hstep
    cases hstep with
    | otherLayout h => exact .inl ⟨_, _, h, .inl rfl⟩
    | noField h => exact .inl ⟨_, _, h, .inr rfl⟩
    | noText h hx =>
      refine .inr ⟨h, fun e he => ?_⟩
      rw [he] at hx
      exact Store.format_ne_error _ e hx

end Safety

/-- A call starts as the first frame says. -/
theorem Activation.holds_start {u : CodeUnit} {f : Func} {is : List Instr} {args : List Value}
    (hsound : ∀ v ∈ args, v.Sound u)
    (hints : ∀ k : Nat, f.params[k]? = some .int → ∃ n, args[k]? = some (.int n)) :
    (start ⟨f, is⟩ args).Holds u (Analyzer.entryFrame f) := by
  refine ⟨forall₂_iff_get.mpr ⟨?_, fun k hk hk' => ?_⟩, .nil⟩
  · rw [Analyzer.entryFrame, Subject.length_entryFrame]
    simp only [start, length_take, length_append, length_replicate]
    omega
  have hv := getElem?_eq_getElem hk
  have ht := getElem?_eq_getElem hk'
  rw [get_eq_getElem, get_eq_getElem]
  generalize (start ⟨f, is⟩ args).locals[k] = v at hv ⊢
  generalize (Analyzer.entryFrame f).locals[k] = t at ht ⊢
  have hk : k < f.maxLocals.toNat := by
    rwa [Analyzer.entryFrame, Subject.length_entryFrame] at hk'
  simp only [start, getElem?_take, if_pos hk] at hv
  simp only [Analyzer.entryFrame, Subject.entryFrame, getElem?_take, if_pos hk] at ht
  constructor
  · rcases mem_append.mp (mem_of_getElem? hv) with h | h
    · exact hsound v h
    · rw [eq_of_mem_replicate h]
      exact .other (by simp)
  · rintro rfl
    by_cases hparam : k < f.params.length
    · rw [getElem?_append_left hparam] at ht
      obtain ⟨n, hn⟩ := hints k ht
      rw [getElem?_append_left (lt_of_getElem? hn), hn] at hv
      exact ⟨n, (Option.some.inj hv).symm⟩
    · rw [getElem?_append_right (Nat.le_of_not_lt hparam)] at ht
      cases eq_of_mem_replicate (mem_of_getElem? ht)

/-- **Verified code is safe.** If a function passes verification and is called with integers for its
integer parameters, and if the calls that it makes return integers where their symbols say so, then
the function is safe wherever it gets to. -/
theorem Analyzer.safe_of_verify {a : Analyzer} {f : Func} {p : Program} {args : List Value}
    (hverify : a.verify f = .ok ()) (hp : p.unit = a.unit) (hsize : f.code.length < 2 ^ 32)
    (hsound : ∀ v ∈ args, v.Sound a.unit)
    (hints : ∀ k : Nat, f.params[k]? = some .int → ∃ n, args[k]? = some (.int n)) :
    ∃ is g an, a.unit.bodyOf f = .ok is ∧ Graph.build f.name is f.handlers [] = .ok g ∧
      a.analyze f is g = .ok an ∧
      ∀ b, (Activation.start ⟨f, is⟩ args).Runs p b → b.Safe p f is an := by
  obtain ⟨is, bound, hbody, hbound, hstack, -, hframes⟩ := Analyzer.verify_eq_ok.mp hverify
  obtain ⟨g, hg, hframes⟩ := bind_eq_ok.mp hframes
  obtain ⟨an, han, -⟩ := bind_eq_ok.mp hframes
  refine ⟨is, g, an, hbody, hg, han, fun b hb => ?_⟩
  obtain ⟨hdecode, -, -, hchecked, -⟩ := CodeUnit.bodyOf_eq_ok.mp hbody
  obtain ⟨hs, hheights, hbound⟩ := bind_eq_ok.mp hbound
  obtain ⟨hfit, hle⟩ := CodeUnit.heightsFit_of_heights hheights
  have ht := Analyzer.typing_of_analyze a.classes.bounds_true (Graph.divides_of_build hg) han
  have hrefers : ∀ i ∈ is, i.Refers a.unit f.maxLocals := fun i hi => (hchecked i hi).2
  -- The bound is a number of instructions, so it fits into the declared one.
  have hmax : hs.bound ≤ f.maxStack.toNat := by
    have hcode := Instr.length_le_of_decodeAll hdecode
    cases hbound
    rwa [UInt32.le_iff_toNat_le, UInt32.toNat_ofNat_of_lt' (by
      rw [show UInt32.size = 2 ^ 32 from rfl]
      omega)] at hstack
  have hstart : Safety.OnTrack a.unit f is an.frameAt hs.heightAt (.start ⟨f, is⟩ args) := by
    obtain ⟨F, hF, hunder⟩ := ht.entry
    exact ⟨rfl, ⟨F, hF, (Activation.holds_start hsound hints).under hunder⟩, hfit.entry⟩
  exact (hstart.runs ht hfit hp hrefers hb).safe ht hfit hmax hp hrefers

/-- Makes a call, and returns its own parameter if the call fails. -/
def guardedFunc : Func where
  name := "f"
  params := [.int]
  result := .int
  code := [0x10, 0x00, 0x40, 0x00, 0x51, 0x18, 0x10, 0x00, 0x51]
  handlers := [
    { start := 0, stop := 2, target := 3, cls := ∅, kind := Handler.catchKind, region := 0 }]
  frames := [
    { instr := 0, locals := [.int], stack := [] },
    { instr := 2, locals := [.int], stack := [.int] },
    { instr := 3, locals := [.int], stack := [.ref ClassName.error] }]
  maxStack := 1
  maxLocals := 1

/-- The body of `guardedFunc`. -/
def guardedBody : List Instr := [.load 0, .invoke 0, .retval, .pop, .load 0, .retval]

def guardedProgram : Program where
  unit := { symbols := [{ owner := "X", name := "use", params := [.int], result := .int }]
            functions := [guardedFunc] }
  bodies := [⟨guardedFunc, guardedBody⟩]
  classes := .ofClasses [] .none
  host := fun _ => none
  maxDepth := 512
  debug := false

/-- The analyzer that accepts `guardedFunc`. -/
def guardedAnalyzer : Analyzer where
  unit := guardedProgram.unit
  classes := guardedProgram.classes

theorem Analyzer.safe_of_verify_guarded :
    ∃ g an, guardedAnalyzer.analyze guardedFunc guardedBody g = .ok an ∧
      Activation.Safe guardedProgram guardedFunc guardedBody an
        ⟨⟨guardedFunc, guardedBody⟩, [.int 5], [.exception (.ofText "no")], 3⟩ := by
  have hbody : guardedAnalyzer.unit.bodyOf guardedFunc = .ok guardedBody := by decide +kernel
  have hsound : ∀ v ∈ [Value.int 5], v.Sound guardedAnalyzer.unit := by
    intro v hv
    rw [List.mem_singleton.mp hv]
    exact .other (by simp)
  have hints : ∀ k : Nat, guardedFunc.params[k]? = some .int →
      ∃ n, [Value.int 5][k]? = some (.int n) := by
    intro k hk
    obtain rfl : k = 0 := by
      have := (List.getElem?_eq_some_iff.mp hk).1
      exact Nat.lt_one_iff.mp this
    exact ⟨5, rfl⟩
  obtain ⟨is, g, an, his, -, han, hsafe⟩ := Analyzer.safe_of_verify (a := guardedAnalyzer)
    (f := guardedFunc) (p := guardedProgram) (by decide +kernel) rfl (by decide) hsound hints
  obtain rfl := Except.ok.inj (hbody.symm.trans his)
  -- The call fails and the handler goes on.
  exact ⟨g, an, han, hsafe _ (.step {} rfl (.call {} {} (.error (Exception.ofText "no").toError) rfl
    trivial rfl .refl))⟩

end Resumable
