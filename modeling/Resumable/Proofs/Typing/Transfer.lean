import Mathlib.Data.List.Forall2
import Resumable.Typing.Transfer

/-!
# What instructions do to frames, as a relation

`Transfer.apply` is a program that pops, checks and pushes, notes resolutions and reports faults.
Everything that is proved about frames only needs to know which frame comes out when nothing is
wrong. That is `Instr.Yields`, a relation with one rule for each form of an instruction, and
`Transfer.run_eq_ok` and `Transfer.run_of_yields` say that it is what the program computes.
-/

namespace Resumable

open List

namespace Transfer

variable {ctx : TypingContext} {pc : Nat} {α β : Type} {s s' : TypingState} {u : Unit} {t : Ty}

/-! ## Running steps of the change -/

/-- The outcome of a step of the change and the state that it leaves. -/
def exec (x : Transfer α) (s : TypingState) : Attempt α × TypingState := ExceptT.run x s

theorem exec_bind (x : Transfer α) (k : α → Transfer β) (s : TypingState) :
    exec (x >>= k) s =
      match exec x s with
      | (.ok a, s') => exec (k a) s'
      | (.error e, s') => (.error e, s') := by
  have h : exec (x >>= k) s = ExceptT.bindCont k (exec x s).1 (exec x s).2 := rfl
  rw [h]
  rcases exec x s with ⟨_ | a, s'⟩ <;> rfl

@[simp] theorem exec_pure (a : α) (s : TypingState) : exec (pure a) s = (.ok a, s) := rfl

@[simp] theorem exec_throw (e : Failure) (s : TypingState) :
    exec (throw e : Transfer α) s = (.error e, s) := rfl

@[simp] theorem exec_get (s : TypingState) : exec get s = (.ok s, s) := rfl

@[simp] theorem exec_modify (g : TypingState → TypingState) (s : TypingState) :
    exec (modify g) s = (.ok (), g s) := rfl

/-- A step of the change that succeeds. -/
def Does (x : Transfer α) (s : TypingState) (a : α) (s' : TypingState) : Prop :=
  exec x s = (.ok a, s')

theorem does_bind {x : Transfer α} {k : α → Transfer β} {s s'' : TypingState} {b : β} :
    Does (x >>= k) s b s'' ↔ ∃ a s', Does x s a s' ∧ Does (k a) s' b s'' := by
  unfold Does
  rw [exec_bind]
  rcases exec x s with ⟨_ | a, s'⟩ <;> simp [and_assoc]

theorem does_pure {a b : α} :
    Does (pure a) s b s' ↔ b = a ∧ s' = s := by
  simp [Does, eq_comm]

theorem not_does_throw {e : Failure} {b : α} :
    ¬ Does (throw e) s b s' := by
  simp [Does]

theorem not_does_fault {problem : Problem} {detail : Text} {b : α} :
    ¬ Does (fault ctx pc problem detail) s b s' :=
  not_does_throw

theorem not_does_mismatch {want got : Ty} {b : α} :
    ¬ Does (mismatch ctx pc want got) s b s' :=
  not_does_throw

theorem does_get {s a s' : TypingState} : Does get s a s' ↔ a = s ∧ s' = s := by
  simp [Does, eq_comm]

theorem does_modify {g : TypingState → TypingState} :
    Does (modify g) s u s' ↔ s' = g s := by
  simp [Does, eq_comm]

theorem does_push :
    Does (push t) s u s' ↔ s' = { s with frame.stack := t :: s.frame.stack } :=
  does_modify

/-! ## Operands -/

theorem does_pop :
    Does (pop ctx pc) s t s' ↔
      ∃ rest, s.frame.stack = t :: rest ∧ s' = { s with frame.stack := rest } := by
  unfold pop
  rw [does_bind]
  simp only [does_get]
  cases hs : s.frame.stack with
  | nil =>
    constructor
    · rintro ⟨_, _, ⟨rfl, rfl⟩, h⟩
      rw [hs] at h
      exact absurd h not_does_fault
    · rintro ⟨_, h, _⟩
      cases h
  | cons x rest =>
    constructor
    · rintro ⟨_, _, ⟨rfl, rfl⟩, h⟩
      rw [hs] at h
      obtain ⟨_, s1, h1, h2⟩ := does_bind.mp h
      obtain rfl := does_modify.mp h1
      obtain ⟨rfl, rfl⟩ := does_pure.mp h2
      exact ⟨rest, rfl, rfl⟩
    · rintro ⟨r, h, rfl⟩
      cases h
      refine ⟨s, s, ⟨rfl, rfl⟩, ?_⟩
      rw [hs]
      exact does_bind.mpr ⟨(), _, does_modify.mpr rfl, does_pure.mpr ⟨rfl, rfl⟩⟩

theorem does_popInt :
    Does (popInt ctx pc) s u s' ↔
      ∃ rest, s.frame.stack = .int :: rest ∧ s' = { s with frame.stack := rest } := by
  unfold popInt
  rw [does_bind]
  constructor
  · rintro ⟨t, s1, hp, h⟩
    obtain ⟨rest, hs, rfl⟩ := does_pop.mp hp
    split at h
    next ht =>
      subst ht
      obtain ⟨_, rfl⟩ := does_pure.mp h
      exact ⟨rest, hs, rfl⟩
    next => exact absurd h not_does_mismatch
  · rintro ⟨rest, hs, rfl⟩
    refine ⟨.int, _, does_pop.mpr ⟨rest, hs, rfl⟩, ?_⟩
    rw [if_pos rfl]
    exact does_pure.mpr ⟨rfl, rfl⟩

theorem does_popRef :
    Does (popRef ctx pc) s t s' ↔
      t.isReference ∧ ∃ rest, s.frame.stack = t :: rest ∧ s' = { s with frame.stack := rest } := by
  unfold popRef
  rw [does_bind]
  constructor
  · rintro ⟨t', s1, hp, h⟩
    obtain ⟨rest, hs, rfl⟩ := does_pop.mp hp
    split at h
    next ht =>
      obtain ⟨rfl, rfl⟩ := does_pure.mp h
      exact ⟨ht, rest, hs, rfl⟩
    next => exact absurd h not_does_mismatch
  · rintro ⟨ht, rest, hs, rfl⟩
    refine ⟨t, _, does_pop.mpr ⟨rest, hs, rfl⟩, ?_⟩
    rw [if_pos ht]
    exact does_pure.mpr ⟨rfl, rfl⟩

/-- The resolution that the use of a type as another one leads to. -/
def resolution (pc slot : Nat) : (got want : Ty) → List Resolution
  | .null, .ref c => [{ instr := pc, slot, type := .ref c }]
  | _, _ => []

theorem does_popAs {want : Ty} :
    Does (popAs ctx pc want) s u s' ↔
      ∃ t rest, s.frame.stack = t :: rest ∧ ctx.classes.assignable t want ∧
        s' = { frame := { s.frame with stack := rest },
               resolved := s.resolved ++ resolution pc rest.length t want } := by
  unfold popAs height
  simp only [does_bind, does_get, does_pure, does_pop]
  constructor
  · rintro ⟨n, _, ⟨_, _, ⟨rfl, rfl⟩, rfl, rfl⟩, t, _, ⟨rest, hs, rfl⟩, h⟩
    refine ⟨t, rest, hs, ?_⟩
    cases ha : ctx.classes.assignable t want with
    | false =>
      rw [ha, if_pos (by rfl)] at h
      obtain ⟨_, _, h, _⟩ := does_bind.mp h
      exact absurd h not_does_mismatch
    | true =>
      rw [ha, if_neg (by simp)] at h
      refine ⟨rfl, ?_⟩
      rw [hs] at h
      split at h
      · obtain rfl := does_modify.mp h
        rfl
      next hn =>
        obtain ⟨_, rfl⟩ := does_pure.mp h
        have hr : resolution pc rest.length t want = [] := by
          unfold resolution
          split
          · exact absurd rfl (hn _ rfl)
          · rfl
        rw [hr, append_nil]
  · rintro ⟨t, rest, hs, ha, rfl⟩
    refine ⟨_, s, ⟨s, s, ⟨rfl, rfl⟩, rfl, rfl⟩, t, _, ⟨rest, hs, rfl⟩, ?_⟩
    rw [ha, if_neg (by simp), hs]
    split
    · exact does_modify.mpr rfl
    next hn =>
      have hr : resolution pc rest.length t want = [] := by
        unfold resolution
        split
        · exact absurd rfl (hn _ rfl)
        · rfl
      rw [hr, append_nil]
      exact does_pure.mpr ⟨rfl, rfl⟩

/-- Types that can be used as some other types, the last one first, as they lie on a stack. -/
def Accepts (ctx : TypingContext) (got wants : List Ty) : Prop :=
  List.Forall₂ (fun t want => ctx.classes.assignable t want = true) got wants.reverse

theorem does_popEach {wants : List Ty} (h : Does (wants.forM (popAs ctx pc)) s u s') :
    ∃ ts rest, s.frame.stack = ts ++ rest ∧
      Forall₂ (fun t want => ctx.classes.assignable t want = true) ts wants ∧
      s'.frame = { s.frame with stack := rest } := by
  induction wants generalizing s with
  | nil =>
    obtain ⟨_, rfl⟩ := does_pure.mp h
    exact ⟨[], s'.frame.stack, rfl, .nil, rfl⟩
  | cons want wants ih =>
    obtain ⟨_, s1, h1, h2⟩ := does_bind.mp h
    obtain ⟨t, rest, hs, ha, rfl⟩ := does_popAs.mp h1
    obtain ⟨ts, rest', hs', hts, hf⟩ := ih h2
    refine ⟨t :: ts, rest', ?_, .cons ha hts, hf⟩
    rw [hs, show rest = ts ++ rest' from hs']
    rfl

theorem does_popAll {wants : List Ty} (h : Does (popAll ctx pc wants) s u s') :
    ∃ ts rest, s.frame.stack = ts ++ rest ∧ Accepts ctx ts wants ∧
      s'.frame = { s.frame with stack := rest } :=
  does_popEach h

theorem exists_does_popEach {wants ts rest : List Ty} (hs : s.frame.stack = ts ++ rest)
    (h : Forall₂ (fun t want => ctx.classes.assignable t want = true) ts wants) :
    ∃ r, Does (wants.forM (popAs ctx pc)) s () ⟨{ s.frame with stack := rest }, r⟩ := by
  induction h generalizing s with
  | nil =>
    refine ⟨s.resolved, does_pure.mpr ⟨rfl, ?_⟩⟩
    rw [nil_append] at hs
    rw [← hs]
  | cons ha _ ih =>
    obtain ⟨r, hr⟩ := ih (s := ⟨{ s.frame with stack := _ }, _⟩) rfl
    exact ⟨r, does_bind.mpr ⟨(), _, does_popAs.mpr ⟨_, _, hs, ha, rfl⟩, hr⟩⟩

theorem exists_does_popAll {wants ts : List Ty} (h : Accepts ctx ts wants) (pc : Nat)
    (ls rest : List Ty) (r : List Resolution) :
    ∃ r', Does (popAll ctx pc wants) ⟨⟨ls, ts ++ rest⟩, r⟩ () ⟨⟨ls, rest⟩, r'⟩ :=
  exists_does_popEach rfl h

theorem does_entry {table : List α} {i : UInt32} {a : α} :
    Does (entry table i) s a s' ↔ item? table i = some a ∧ s' = s := by
  unfold entry
  cases item? table i with
  | none => simp [not_does_throw]
  | some b => simp [does_pure, eq_comm]

end Transfer

/-! ## Locals -/

/-- Can a value of this type be used at all? -/
def Ty.Usable (t : Ty) : Prop := t ≠ .top ∧ t ≠ .void

/-- The stack under a result of this type. -/
def Ty.pushed (t : Ty) (stack : List Ty) : List Ty := if t = .void then stack else t :: stack

namespace Transfer

variable {ctx : TypingContext} {pc : Nat}

theorem does_readLocal {n : UInt32} {t : Ty} {s s' : TypingState} :
    Does (readLocal ctx pc n) s t s' ↔
      item? s.frame.locals n = some t ∧ t.Usable ∧ s' = s := by
  unfold readLocal
  simp only [does_bind, does_get]
  constructor
  · rintro ⟨_, _, ⟨rfl, rfl⟩, h⟩
    split at h
    · exact absurd h not_does_fault
    next t' ht =>
      split at h
      · exact absurd h not_does_fault
      next hu =>
        obtain ⟨rfl, rfl⟩ := does_pure.mp h
        refine ⟨ht, ?_, rfl⟩
        simpa [Ty.Usable] using hu
  · rintro ⟨ht, hu, rfl⟩
    refine ⟨_, _, ⟨rfl, rfl⟩, ?_⟩
    rw [ht]
    have hn : ¬ ((decide (t = .top) || decide (t = .void)) = true) := by
      simpa [Ty.Usable] using hu
    show Does (if _ then _ else _) _ _ _
    rw [if_neg hn]
    exact does_pure.mpr ⟨rfl, rfl⟩

theorem does_writeLocal {n : UInt32} {t : Ty} {u : Unit} {s s' : TypingState} :
    Does (writeLocal ctx pc n t) s u s' ↔
      n.toNat < s.frame.locals.length ∧
        s' = { s with frame.locals := s.frame.locals.set n.toNat t } := by
  unfold writeLocal
  simp only [does_bind, does_get]
  constructor
  · rintro ⟨_, _, ⟨rfl, rfl⟩, h⟩
    split at h
    next hn => exact ⟨hn, does_modify.mp h⟩
    next => exact absurd h not_does_fault
  · rintro ⟨hn, rfl⟩
    refine ⟨_, _, ⟨rfl, rfl⟩, ?_⟩
    rw [if_pos hn]
    exact does_modify.mpr rfl

end Transfer

/-! ## The relation -/

/-- An instruction accepts the frame before it and yields the frame after it. -/
inductive Instr.Yields (ctx : TypingContext) : Instr → Frame → Frame → Prop
  | nop {f} : Yields ctx .nop f f
  | iconst {v ls st} : Yields ctx (.iconst v) ⟨ls, st⟩ ⟨ls, .int :: st⟩
  | sconst {n ls st} : Yields ctx (.sconst n) ⟨ls, st⟩ ⟨ls, .ref ClassName.string :: st⟩
  | null {ls st} : Yields ctx .null ⟨ls, st⟩ ⟨ls, .null :: st⟩
  | load {n t ls st} (hl : item? ls n = some t) (hu : t.Usable) :
      Yields ctx (.load n) ⟨ls, st⟩ ⟨ls, t :: st⟩
  | store {n t ls st} (hn : n.toNat < ls.length) :
      Yields ctx (.store n) ⟨ls, t :: st⟩ ⟨ls.set n.toNat t, st⟩
  | pop {t ls st} : Yields ctx .pop ⟨ls, t :: st⟩ ⟨ls, st⟩
  | dup {t ls st} : Yields ctx .dup ⟨ls, t :: st⟩ ⟨ls, t :: t :: st⟩
  | swap {s t ls st} : Yields ctx .swap ⟨ls, s :: t :: st⟩ ⟨ls, t :: s :: st⟩
  | arith {op ls st} : Yields ctx (.arith op) ⟨ls, .int :: .int :: st⟩ ⟨ls, .int :: st⟩
  | goto {t f} : Yields ctx (.goto t) f f
  | zero {t ls st} : Yields ctx (.branch .zero t) ⟨ls, .int :: st⟩ ⟨ls, st⟩
  | nonzero {t ls st} : Yields ctx (.branch .nonzero t) ⟨ls, .int :: st⟩ ⟨ls, st⟩
  | less {t ls st} : Yields ctx (.branch .less t) ⟨ls, .int :: .int :: st⟩ ⟨ls, st⟩
  | ifnull {t c ls st} (hc : c.isReference) :
      Yields ctx (.branch .null t) ⟨ls, c :: st⟩ ⟨ls, st⟩
  | ifnonnull {t c ls st} (hc : c.isReference) :
      Yields ctx (.branch .nonnull t) ⟨ls, c :: st⟩ ⟨ls, st⟩
  | switch {low ts d ls st} : Yields ctx (.switch low ts d) ⟨ls, .int :: st⟩ ⟨ls, st⟩
  | invoke {n s ts ls st} (hs : item? ctx.unit.symbols n = some s)
      (hp : Transfer.Accepts ctx ts s.params) :
      Yields ctx (.invoke n) ⟨ls, ts ++ st⟩ ⟨ls, s.result.pushed st⟩
  | checkcast {n c t ls st} (hs : item? ctx.unit.strings n = some c) (ht : t.isReference) :
      Yields ctx (.checkcast n) ⟨ls, t :: st⟩ ⟨ls, .ref c :: st⟩
  | instanceof {n t ls st} (ht : t.isReference) :
      Yields ctx (.instanceof n) ⟨ls, t :: st⟩ ⟨ls, .int :: st⟩
  | raise {t ls st} (ht : ctx.classes.assignable t (.ref ClassName.error)) :
      Yields ctx .raise ⟨ls, t :: st⟩ ⟨ls, st⟩
  | ret {f} (hr : ctx.result = .void) : Yields ctx .ret f f
  | retval {t ls st} (hr : ctx.result ≠ .void) (ht : ctx.classes.assignable t ctx.result) :
      Yields ctx .retval ⟨ls, t :: st⟩ ⟨ls, st⟩
  | newrec {n l ts ls st} (hl : item? ctx.unit.records n = some l)
      (hp : Transfer.Accepts ctx ts l.fields) :
      Yields ctx (.newrec n) ⟨ls, ts ++ st⟩ ⟨ls, .ref ClassName.state :: st⟩
  | recget {n k l t c ls st} (hc : ctx.classes.assignable c (.ref ClassName.state))
      (hl : item? ctx.unit.records n = some l) (ht : item? l.fields k = some t) :
      Yields ctx (.recget n k) ⟨ls, c :: st⟩ ⟨ls, t :: st⟩

namespace Transfer

variable {ctx : TypingContext} {pc : Nat} {i : Instr}

/-- What the program computes is what the relation says. -/
theorem yields_of_does {s s' : TypingState} {u : Unit}
    (h : Does (apply ctx pc i) s u s') : i.Yields ctx s.frame s'.frame := by
  obtain ⟨⟨ls, st⟩, r⟩ := s
  cases i with
  | nop => obtain ⟨_, rfl⟩ := does_pure.mp h; exact .nop
  | goto t => obtain ⟨_, rfl⟩ := does_pure.mp h; exact .goto
  | iconst v => obtain rfl := does_push.mp h; exact .iconst
  | sconst n => obtain rfl := does_push.mp h; exact .sconst
  | null => obtain rfl := does_push.mp h; exact .null
  | load n =>
    obtain ⟨t, _, h1, h2⟩ := does_bind.mp h
    obtain ⟨hl, hu, rfl⟩ := does_readLocal.mp h1
    obtain rfl := does_push.mp h2
    exact .load hl hu
  | store n =>
    obtain ⟨t, _, h1, h2⟩ := does_bind.mp h
    obtain ⟨rest, rfl, rfl⟩ := does_pop.mp h1
    obtain ⟨hn, rfl⟩ := does_writeLocal.mp h2
    exact .store hn
  | pop =>
    obtain ⟨t, _, h1, h2⟩ := does_bind.mp h
    obtain ⟨rest, rfl, rfl⟩ := does_pop.mp h1
    obtain ⟨_, rfl⟩ := does_pure.mp h2
    exact .pop
  | dup =>
    obtain ⟨t, _, h1, h2⟩ := does_bind.mp h
    obtain ⟨rest, rfl, rfl⟩ := does_pop.mp h1
    obtain ⟨_, _, h3, h4⟩ := does_bind.mp h2
    obtain rfl := does_push.mp h3
    obtain rfl := does_push.mp h4
    exact .dup
  | swap =>
    obtain ⟨t, _, h1, h2⟩ := does_bind.mp h
    obtain ⟨rest, rfl, rfl⟩ := does_pop.mp h1
    obtain ⟨t', _, h3, h4⟩ := does_bind.mp h2
    obtain ⟨rest', rfl, rfl⟩ := does_pop.mp h3
    obtain ⟨_, _, h5, h6⟩ := does_bind.mp h4
    obtain rfl := does_push.mp h5
    obtain rfl := does_push.mp h6
    exact .swap
  | arith op =>
    obtain ⟨_, _, h1, h2⟩ := does_bind.mp h
    obtain ⟨rest, rfl, rfl⟩ := does_popInt.mp h1
    obtain ⟨_, _, h3, h4⟩ := does_bind.mp h2
    obtain ⟨rest', rfl, rfl⟩ := does_popInt.mp h3
    obtain rfl := does_push.mp h4
    exact .arith
  | branch test t =>
    cases test with
    | zero => obtain ⟨rest, rfl, rfl⟩ := does_popInt.mp h; exact .zero
    | nonzero => obtain ⟨rest, rfl, rfl⟩ := does_popInt.mp h; exact .nonzero
    | less =>
      obtain ⟨_, _, h1, h2⟩ := does_bind.mp h
      obtain ⟨rest, rfl, rfl⟩ := does_popInt.mp h1
      obtain ⟨rest', rfl, rfl⟩ := does_popInt.mp h2
      exact .less
    | null =>
      obtain ⟨c, _, h1, h2⟩ := does_bind.mp h
      obtain ⟨hc, rest, rfl, rfl⟩ := does_popRef.mp h1
      obtain ⟨_, rfl⟩ := does_pure.mp h2
      exact .ifnull hc
    | nonnull =>
      obtain ⟨c, _, h1, h2⟩ := does_bind.mp h
      obtain ⟨hc, rest, rfl, rfl⟩ := does_popRef.mp h1
      obtain ⟨_, rfl⟩ := does_pure.mp h2
      exact .ifnonnull hc
  | switch low ts d => obtain ⟨rest, rfl, rfl⟩ := does_popInt.mp h; exact .switch
  | invoke n =>
    obtain ⟨sym, _, h1, h2⟩ := does_bind.mp h
    obtain ⟨hs, rfl⟩ := does_entry.mp h1
    obtain ⟨_, s1, h3, h4⟩ := does_bind.mp h2
    obtain ⟨ts, rest, rfl, hp, hf⟩ := does_popAll h3
    have hres : s'.frame = ⟨ls, sym.result.pushed rest⟩ := by
      unfold Ty.pushed
      split at h4
      next hv =>
        obtain rfl := does_push.mp h4
        rw [hf, if_neg hv]
      next hv =>
        obtain ⟨_, rfl⟩ := does_pure.mp h4
        rw [hf, if_pos (Decidable.not_not.mp hv)]
    rw [hres]
    exact .invoke hs hp
  | checkcast n =>
    simp only [apply, height, does_bind, does_get, does_pure] at h
    obtain ⟨c, _, h1, _, _, ⟨_, _, ⟨rfl, rfl⟩, rfl, rfl⟩, t, s1, h2, h3⟩ := h
    obtain ⟨hs, rfl⟩ := does_entry.mp h1
    obtain ⟨ht, rest, hst, rfl⟩ := does_popRef.mp h2
    obtain rfl : st = t :: rest := hst
    split at h3
    · obtain ⟨_, _, h4, h5⟩ := does_bind.mp h3
      obtain rfl := does_modify.mp h4
      obtain rfl := does_push.mp h5
      exact .checkcast hs ht
    · obtain rfl := does_push.mp h3
      exact .checkcast hs ht
  | instanceof n =>
    obtain ⟨c, _, h1, h2⟩ := does_bind.mp h
    obtain ⟨hc, rest, rfl, rfl⟩ := does_popRef.mp h1
    obtain rfl := does_push.mp h2
    exact .instanceof hc
  | raise =>
    obtain ⟨t, rest, rfl, ha, rfl⟩ := does_popAs.mp h
    exact .raise ha
  | ret =>
    simp only [apply] at h
    split at h
    next hr => obtain ⟨_, rfl⟩ := does_pure.mp h; exact .ret hr
    next => exact absurd h not_does_mismatch
  | retval =>
    simp only [apply] at h
    split at h
    next => exact absurd h not_does_fault
    next hr =>
      obtain ⟨t, rest, rfl, ha, rfl⟩ := does_popAs.mp h
      exact .retval hr ha
  | newrec n =>
    obtain ⟨l, _, h1, h2⟩ := does_bind.mp h
    obtain ⟨hl, rfl⟩ := does_entry.mp h1
    obtain ⟨_, s1, h3, h4⟩ := does_bind.mp h2
    obtain ⟨ts, rest, rfl, hp, hf⟩ := does_popAll h3
    obtain rfl := does_push.mp h4
    show Instr.Yields ctx _ _ ⟨s1.frame.locals, _ :: s1.frame.stack⟩
    rw [hf]
    exact .newrec hl hp
  | recget n k =>
    obtain ⟨_, _, h1, h2⟩ := does_bind.mp h
    obtain ⟨c, rest, rfl, ha, rfl⟩ := does_popAs.mp h1
    obtain ⟨l, _, h3, h4⟩ := does_bind.mp h2
    obtain ⟨hl, rfl⟩ := does_entry.mp h3
    obtain ⟨t, _, h5, h6⟩ := does_bind.mp h4
    obtain ⟨ht, rfl⟩ := does_entry.mp h5
    obtain rfl := does_push.mp h6
    exact .recget ha hl ht

/-- What the relation says is what the program computes, whatever was resolved before. -/
theorem exists_does_of_yields {f g : Frame} (h : i.Yields ctx f g)
    (r : List Resolution) : ∃ r', Does (apply ctx pc i) ⟨f, r⟩ () ⟨g, r'⟩ := by
  cases h with
  | nop | goto | iconst | sconst | null => exact ⟨r, rfl⟩
  | load hl hu =>
    exact ⟨r, does_bind.mpr ⟨_, _, does_readLocal.mpr ⟨hl, hu, rfl⟩, does_push.mpr rfl⟩⟩
  | store hn =>
    exact ⟨r, does_bind.mpr ⟨_, _, does_pop.mpr ⟨_, rfl, rfl⟩,
      does_writeLocal.mpr ⟨hn, rfl⟩⟩⟩
  | pop | dup | swap | arith | zero | nonzero | less => exact ⟨r, rfl⟩
  | ifnull hc | ifnonnull hc =>
    exact ⟨r, does_bind.mpr ⟨_, _, does_popRef.mpr ⟨hc, _, rfl, rfl⟩, does_pure.mpr ⟨rfl, rfl⟩⟩⟩
  | switch => exact ⟨r, rfl⟩
  | @invoke n s ts ls st hs hp =>
    obtain ⟨r', hr⟩ := exists_does_popAll hp pc ls st r
    refine ⟨r', does_bind.mpr ⟨_, _, does_entry.mpr ⟨hs, rfl⟩,
      does_bind.mpr ⟨_, _, hr, ?_⟩⟩⟩
    unfold Ty.pushed
    by_cases hv : s.result = .void
    · rw [if_neg (not_not_intro hv), if_pos hv]
      exact does_pure.mpr ⟨rfl, rfl⟩
    · rw [if_pos hv, if_neg hv]
      exact does_push.mpr rfl
  | @checkcast n c t ls st hs ht =>
    simp only [apply, height, does_bind, does_get, does_pure]
    have hpop : Does (popRef ctx pc) ⟨⟨ls, t :: st⟩, r⟩ t ⟨⟨ls, st⟩, r⟩ :=
      does_popRef.mpr ⟨ht, _, rfl, rfl⟩
    by_cases hn : t = .null
    · refine ⟨r ++ [{ instr := pc, slot := st.length, type := .ref c }], c, _,
        does_entry.mpr ⟨hs, rfl⟩, _, _, ⟨_, _, ⟨rfl, rfl⟩, rfl, rfl⟩, t, _, hpop, ?_⟩
      rw [if_pos hn]
      exact does_bind.mpr ⟨(), _, does_modify.mpr rfl, does_push.mpr rfl⟩
    · refine ⟨r, c, _, does_entry.mpr ⟨hs, rfl⟩, _, _, ⟨_, _, ⟨rfl, rfl⟩, rfl, rfl⟩,
        t, _, hpop, ?_⟩
      rw [if_neg hn]
      exact does_push.mpr rfl
  | instanceof hc =>
    exact ⟨r, does_bind.mpr ⟨_, _, does_popRef.mpr ⟨hc, _, rfl, rfl⟩, does_push.mpr rfl⟩⟩
  | raise ha => exact ⟨_, does_popAs.mpr ⟨_, _, rfl, ha, rfl⟩⟩
  | ret hr =>
    refine ⟨r, ?_⟩
    simp only [apply]
    rw [if_pos hr]
    exact does_pure.mpr ⟨rfl, rfl⟩
  | retval hr ha =>
    simp only [apply]
    rw [if_neg hr]
    exact ⟨_, does_popAs.mpr ⟨_, _, rfl, ha, rfl⟩⟩
  | @newrec n l ts ls st hl hp =>
    obtain ⟨r', hr⟩ := exists_does_popAll hp pc ls st r
    exact ⟨r', does_bind.mpr ⟨_, _, does_entry.mpr ⟨hl, rfl⟩,
      does_bind.mpr ⟨_, _, hr, does_push.mpr rfl⟩⟩⟩
  | recget hc hl ht =>
    exact ⟨_, does_bind.mpr ⟨(), _, does_popAs.mpr ⟨_, _, rfl, hc, rfl⟩,
      does_bind.mpr ⟨_, _, does_entry.mpr ⟨hl, rfl⟩,
        does_bind.mpr ⟨_, _, does_entry.mpr ⟨ht, rfl⟩, does_push.mpr rfl⟩⟩⟩⟩

/-- If the program succeeds, its frames are related. -/
theorem run_eq_ok {s s' : TypingState} (h : run ctx pc i s = (.ok (), s')) :
    i.Yields ctx s.frame s'.frame :=
  yields_of_does h

/-- If frames are related, the program succeeds and leaves the second one. -/
theorem run_of_yields {f g : Frame} (h : i.Yields ctx f g) (pc : Nat)
    (r : List Resolution) : ∃ r', run ctx pc i ⟨f, r⟩ = (.ok (), ⟨g, r'⟩) :=
  exists_does_of_yields h r

end Transfer

namespace Instr.Yields

variable {ctx : TypingContext} {i : Instr} {f g : Frame}

/-- There is at most one frame after an instruction. -/
theorem unique {f g g' : Frame} (h : i.Yields ctx f g) (h' : i.Yields ctx f g') :
    g = g' := by
  obtain ⟨r, hr⟩ := Transfer.run_of_yields h 0 []
  obtain ⟨r', hr'⟩ := Transfer.run_of_yields h' 0 []
  have := hr.symm.trans hr'
  simp only [Prod.mk.injEq, TypingState.mk.injEq] at this
  exact this.2.1

/-- An instruction replaces the upper part of the stack, as much of it as its stack effect says. -/
theorem stackEffect (h : i.Yields ctx f g) :
    ∃ pops outs, i.stackEffect ctx.unit = some (pops, outs.length) ∧ pops ≤ f.stack.length ∧
      g.stack = outs ++ f.stack.drop pops := by
  cases h with
  | nop | goto => exact ⟨0, [], rfl, Nat.zero_le _, rfl⟩
  | iconst | sconst | null | load => exact ⟨0, [_], rfl, Nat.zero_le _, rfl⟩
  | store | pop => exact ⟨1, [], rfl, by simp, rfl⟩
  | dup => exact ⟨1, [_, _], rfl, by simp, rfl⟩
  | swap => exact ⟨2, [_, _], rfl, by simp, rfl⟩
  | arith => exact ⟨2, [_], rfl, by simp, rfl⟩
  | zero | nonzero => exact ⟨1, [], rfl, by simp, rfl⟩
  | less => exact ⟨2, [], rfl, by simp, rfl⟩
  | ifnull | ifnonnull | switch => exact ⟨1, [], rfl, by simp, rfl⟩
  | @invoke n s ts ls st hs hp =>
    have hlen : ts.length = s.params.length := by
      simpa using hp.length_eq
    refine ⟨s.params.length, s.result.pushed [], ?_, by simp [hlen], ?_⟩
    · simp only [Instr.stackEffect, hs, Option.map_some, Ty.pushed]
      split <;> rfl
    · rw [← hlen, drop_left]
      unfold Ty.pushed
      split <;> rfl
  | checkcast | instanceof => exact ⟨1, [_], rfl, by simp, rfl⟩
  | raise => exact ⟨1, [], rfl, by simp, rfl⟩
  | ret => exact ⟨0, [], rfl, Nat.zero_le _, rfl⟩
  | retval => exact ⟨1, [], rfl, by simp, rfl⟩
  | @newrec n l ts ls st hl hp =>
    have hlen : ts.length = l.fields.length := by
      simpa using hp.length_eq
    refine ⟨l.fields.length, [.ref ClassName.state], ?_, by simp [hlen], ?_⟩
    · simp [Instr.stackEffect, hl]
    · rw [← hlen, drop_left]
      rfl
  | recget => exact ⟨1, [_], rfl, by simp, rfl⟩

/-- The height after an instruction is known from the height before it. -/
theorem height (h : i.Yields ctx f g) :
    ∃ pops pushes, i.stackEffect ctx.unit = some (pops, pushes) ∧ pops ≤ f.stack.length ∧
      g.stack.length = f.stack.length - pops + pushes := by
  obtain ⟨pops, outs, he, hp, hg⟩ := h.stackEffect
  refine ⟨pops, outs.length, he, hp, ?_⟩
  rw [hg, length_append, length_drop]
  omega

/-- An instruction adds at most one slot to the stack. -/
theorem stack_length (h : i.Yields ctx f g) :
    g.stack.length ≤ f.stack.length + 1 := by
  cases h with
  | @invoke n s ts ls st hs hp =>
    have : (s.result.pushed st).length ≤ st.length + 1 := by
      unfold Ty.pushed
      split <;> simp
    simp only [length_append]
    omega
  | _ => grind

/-- Only a store changes locals. -/
theorem locals_eq (h : i.Yields ctx f g) (hs : ∀ n, i ≠ .store n) :
    g.locals = f.locals := by
  cases h with
  | store => exact absurd rfl (hs _)
  | _ => rfl

/-- The number of locals stays. -/
theorem locals_length (h : i.Yields ctx f g) :
    g.locals.length = f.locals.length := by
  cases h with
  | store => simp
  | _ => rfl

end Instr.Yields

end Resumable
