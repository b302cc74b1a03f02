import Mathlib.Algebra.GroupWithZero.Nat
import Mathlib.Algebra.Order.Group.Nat
import Resumable.Proofs.Hierarchy
import Resumable.Proofs.Pointwise
import Resumable.Proofs.Typing.Transfer

/-!
# The order of types

Types are ordered by how much they promise: null is below every class, a class is below its
superclasses and all classes are below the root. A local may also be unusable, which is above
everything; a stack slot may not. Where the class hierarchy is grounded, the joins of frames are
least upper bounds in this order, and every instruction is monotone in it.
-/

namespace Resumable

open List

/-! ## Types and frames -/

/-- The order of the types of stack slots, for an order `I` of classes. -/
inductive Ty.Under (I : Text → Text → Prop) : Ty → Ty → Prop
  | refl {t} : Under I t t
  | null {c} : Under I .null (.ref c)
  | ref {c d} (h : I c d) : Under I (.ref c) (.ref d)

/-- The order of the types of locals, which may be unusable. -/
def Ty.LocalUnder (I : Text → Text → Prop) (a b : Ty) : Prop := b = .top ∨ Ty.Under I a b

/-- The order of frames. Frames of different sizes are not comparable. -/
structure Frame.Under (I : Text → Text → Prop) (f g : Frame) : Prop where
  locals : List.Forall₂ (Ty.LocalUnder I) f.locals g.locals
  stack : List.Forall₂ (Ty.Under I) f.stack g.stack

namespace Ty

variable {h : Hierarchy} {I : Text → Text → Prop} {a b c t : Ty}

theorem Under.trans (hb : h.Bounds I) (hab : Under I a b) (hbc : Under I b c) : Under I a c := by
  cases hab with
  | refl => exact hbc
  | null =>
    cases hbc with
    | refl => exact .null
    | ref => exact .null
  | ref h1 =>
    cases hbc with
    | refl => exact .ref h1
    | ref h2 => exact .ref (hb.trans h1 h2)

theorem Under.antisymm (hg : h.Grounded) (hab : Under h.Inherits a b)
    (hba : Under h.Inherits b a) : a = b := by
  cases hab with
  | refl => rfl
  | null => cases hba
  | ref h1 =>
    cases hba with
    | refl => rfl
    | ref h2 => rw [hg.inherits_antisymm h1 h2]

theorem Under.isReference (hab : Under I a b) : a.isReference = b.isReference := by
  cases hab <;> rfl

theorem LocalUnder.refl : LocalUnder I t t := Or.inr .refl

theorem LocalUnder.trans (hb : h.Bounds I) (hab : LocalUnder I a b) (hbc : LocalUnder I b c) :
    LocalUnder I a c := by
  rcases hbc with rfl | hbc
  · exact Or.inl rfl
  · rcases hab with rfl | hab
    · cases hbc
      exact Or.inl rfl
    · exact Or.inr (hab.trans hb hbc)

theorem LocalUnder.antisymm (hg : h.Grounded) (hab : LocalUnder h.Inherits a b)
    (hba : LocalUnder h.Inherits b a) : a = b := by
  rcases hab with rfl | hab
  · rcases hba with rfl | hba
    · rfl
    · cases hba
      rfl
  · rcases hba with rfl | hba
    · cases hab
      rfl
    · exact hab.antisymm hg hba

/-- Below a usable type there are only usable types, and the order is that of the stack. -/
theorem LocalUnder.usable (hab : LocalUnder I a b) (hu : b.Usable) : a.Usable ∧ Under I a b := by
  rcases hab with rfl | hab
  · exact absurd rfl hu.1
  · refine ⟨?_, hab⟩
    cases hab with
    | refl => exact hu
    | null | ref => exact ⟨Ty.noConfusion, Ty.noConfusion⟩

/-- What is below an assignable type is assignable. -/
theorem Under.assignable (hg : h.Grounded) (hab : Under h.Inherits a b)
    (hw : h.assignable b t = true) : h.assignable a t = true := by
  cases hab with
  | refl => exact hw
  | null =>
    cases t with
    | ref d => rfl
    | top => rfl
    | _ => exact absurd hw Bool.false_ne_true
  | ref h1 =>
    cases t with
    | ref d =>
      have h2 := hg.isSubclass_iff.mp hw
      exact hg.isSubclass_iff.mpr (hg.inherits_trans h1 h2)
    | top => rfl
    | _ => exact absurd hw Bool.false_ne_true

end Ty

namespace Frame

variable {h : Hierarchy} {I : Text → Text → Prop} {f g k : Frame}

theorem Under.refl (I : Text → Text → Prop) (f : Frame) : f.Under I f where
  locals := forall₂_same.mpr fun _ _ => .refl
  stack := forall₂_same.mpr fun _ _ => .refl

theorem Under.trans (hb : h.Bounds I) (hfg : f.Under I g) (hgk : g.Under I k) : f.Under I k where
  locals := forall₂_comp hfg.locals hgk.locals fun _ _ _ h1 h2 => h1.trans hb h2
  stack := forall₂_comp hfg.stack hgk.stack fun _ _ _ h1 h2 => h1.trans hb h2

theorem Under.antisymm (hg : h.Grounded) (hfg : f.Under h.Inherits g)
    (hgf : g.Under h.Inherits f) : f = g := by
  have hl := forall₂_antisymm (Ty.LocalUnder.antisymm hg) hfg.locals hgf.locals
  have hs := forall₂_antisymm (Ty.Under.antisymm hg) hfg.stack hgf.stack
  cases f
  cases g
  rw [Frame.mk.injEq]
  exact ⟨hl, hs⟩

/-- A frame with another stack below one with the same other stack. -/
theorem Under.withStack (hfg : f.Under I g) (st : List Ty) :
    Frame.Under I { f with stack := st } { g with stack := st } where
  locals := hfg.locals
  stack := forall₂_same.mpr fun _ _ => .refl

end Frame

/-! ## Joins are least upper bounds -/

namespace Hierarchy

variable {h : Hierarchy} {I : Text → Text → Prop} {a b c t : Ty}

theorem join_upper (hb : h.Bounds I) (hj : h.join a b = some t) : a.Under I t ∧ b.Under I t := by
  unfold join at hj
  split at hj
  next hab =>
    cases hj
    exact ⟨.refl, hab ▸ .refl⟩
  next =>
    split at hj
    · cases hj
      exact ⟨.null, .refl⟩
    · cases hj
      exact ⟨.refl, .null⟩
    · cases hj
      exact ⟨.ref (hb.left _ _), .ref (hb.right _ _)⟩
    · cases hj

theorem Grounded.join_least (hg : h.Grounded) (ha : a.Under h.Inherits c)
    (hb : b.Under h.Inherits c) : ∃ t, h.join a b = some t ∧ t.Under h.Inherits c := by
  unfold join
  split
  next => exact ⟨a, rfl, ha⟩
  next hab =>
    cases ha with
    | refl =>
      cases hb with
      | refl => exact absurd rfl hab
      | null => exact ⟨_, rfl, .refl⟩
      | ref h2 => exact ⟨_, rfl, .ref (hg.commonAncestor_inherits .refl h2)⟩
    | null =>
      cases hb with
      | refl => exact ⟨_, rfl, .refl⟩
      | null => exact absurd rfl hab
      | ref h2 => exact ⟨_, rfl, .ref h2⟩
    | ref h1 =>
      cases hb with
      | refl => exact ⟨_, rfl, .ref (hg.commonAncestor_inherits h1 .refl)⟩
      | null => exact ⟨_, rfl, .ref h1⟩
      | ref h2 => exact ⟨_, rfl, .ref (hg.commonAncestor_inherits h1 h2)⟩

theorem joinLocal_upper (hb : h.Bounds I) (a b : Ty) :
    a.LocalUnder I ((h.join a b).getD .top) ∧ b.LocalUnder I ((h.join a b).getD .top) := by
  cases hj : h.join a b with
  | none => exact ⟨Or.inl rfl, Or.inl rfl⟩
  | some t =>
    obtain ⟨h1, h2⟩ := join_upper hb hj
    exact ⟨Or.inr h1, Or.inr h2⟩

theorem Grounded.joinLocal_least (hg : h.Grounded) (ha : a.LocalUnder h.Inherits c)
    (hb : b.LocalUnder h.Inherits c) : ((h.join a b).getD .top).LocalUnder h.Inherits c := by
  rcases ha with rfl | ha
  · exact Or.inl rfl
  · rcases hb with rfl | hb
    · exact Or.inl rfl
    · obtain ⟨t, hj, ht⟩ := hg.join_least ha hb
      rw [hj]
      exact Or.inr ht

theorem joinLocals_upper (hb : h.Bounds I) {as bs : List Ty} (hlen : as.length = bs.length) :
    Forall₂ (Ty.LocalUnder I) as (h.joinLocals as bs) ∧
      Forall₂ (Ty.LocalUnder I) bs (h.joinLocals as bs) := by
  induction as generalizing bs with
  | nil =>
    cases bs with
    | nil => exact ⟨.nil, .nil⟩
    | cons => cases hlen
  | cons a as ih =>
    cases bs with
    | nil => cases hlen
    | cons b bs =>
      obtain ⟨h1, h2⟩ := ih (Nat.succ.inj hlen)
      obtain ⟨ha, hb⟩ := joinLocal_upper hb a b
      exact ⟨.cons ha h1, .cons hb h2⟩

theorem Grounded.joinLocals_least (hg : h.Grounded) {as bs cs : List Ty}
    (ha : Forall₂ (Ty.LocalUnder h.Inherits) as cs)
    (hb : Forall₂ (Ty.LocalUnder h.Inherits) bs cs) :
    Forall₂ (Ty.LocalUnder h.Inherits) (h.joinLocals as bs) cs := by
  induction ha generalizing bs with
  | nil =>
    cases hb
    exact .nil
  | cons ha _ ih =>
    cases hb with
    | cons hb hbs => exact .cons (hg.joinLocal_least ha hb) (ih hbs)

theorem joinStack_cons {n : Nat} {as bs ts : List Ty} :
    h.joinStack n (a :: as) (b :: bs) = .ok ts ↔
      ∃ t rest, h.join a b = some t ∧ h.joinStack (n + 1) as bs = .ok rest ∧ ts = t :: rest := by
  rw [joinStack]
  cases h.join a b with
  | none => simp
  | some t =>
    cases h.joinStack (n + 1) as bs with
    | error e => simp [bind, Except.bind]
    | ok rest => simp [bind, Except.bind, pure, Except.pure, eq_comm]

theorem joinStack_upper (hb : h.Bounds I) {n : Nat} {as bs ts : List Ty}
    (hlen : as.length = bs.length) (hj : h.joinStack n as bs = .ok ts) :
    Forall₂ (Ty.Under I) as ts ∧ Forall₂ (Ty.Under I) bs ts := by
  induction as generalizing bs n ts with
  | nil =>
    cases bs with
    | nil =>
      cases hj
      exact ⟨.nil, .nil⟩
    | cons => cases hlen
  | cons a as ih =>
    cases bs with
    | nil => cases hlen
    | cons b bs =>
      obtain ⟨t, rest, ht, hr, rfl⟩ := joinStack_cons.mp hj
      obtain ⟨h1, h2⟩ := ih (Nat.succ.inj hlen) hr
      obtain ⟨ha, hb⟩ := join_upper hb ht
      exact ⟨.cons ha h1, .cons hb h2⟩

theorem Grounded.joinStack_least (hg : h.Grounded) {n : Nat} {as bs cs : List Ty}
    (ha : Forall₂ (Ty.Under h.Inherits) as cs)
    (hb : Forall₂ (Ty.Under h.Inherits) bs cs) :
    ∃ ts, h.joinStack n as bs = .ok ts ∧ Forall₂ (Ty.Under h.Inherits) ts cs := by
  induction ha generalizing bs n with
  | nil =>
    cases hb
    exact ⟨[], rfl, .nil⟩
  | cons ha _ ih =>
    cases hb with
    | cons hb hbs =>
      obtain ⟨rest, hr, hrest⟩ := ih (n := n + 1) hbs
      obtain ⟨t, ht, htc⟩ := hg.join_least ha hb
      exact ⟨t :: rest, joinStack_cons.mpr ⟨t, rest, ht, hr, rfl⟩, .cons htc hrest⟩

theorem joinFrames_eq_ok {f g k : Frame} :
    h.joinFrames f g = .ok k ↔
      f.stack.length = g.stack.length ∧
        h.joinStack 0 f.stack.reverse g.stack.reverse = .ok k.stack.reverse ∧
        k.locals = h.joinLocals f.locals g.locals := by
  unfold joinFrames
  split
  next hne => simp [hne]
  next heq =>
    rw [Decidable.not_not.mp heq]
    obtain ⟨ls, st⟩ := k
    cases hj : h.joinStack 0 f.stack.reverse g.stack.reverse with
    | error e => simp [bind, Except.bind]
    | ok ts =>
      simp only [bind, Except.bind, pure, Except.pure, Except.ok.injEq, Frame.mk.injEq,
        true_and]
      constructor
      · rintro ⟨rfl, rfl⟩
        exact ⟨(reverse_reverse _).symm, rfl⟩
      · rintro ⟨rfl, rfl⟩
        exact ⟨rfl, reverse_reverse _⟩

/-- A joined frame is above both frames. -/
theorem joinFrames_upper (hb : h.Bounds I) {f g k : Frame}
    (hlen : f.locals.length = g.locals.length) (hj : h.joinFrames f g = .ok k) :
    f.Under I k ∧ g.Under I k := by
  obtain ⟨hs, hj, hl⟩ := joinFrames_eq_ok.mp hj
  obtain ⟨h1, h2⟩ := joinStack_upper hb (by simpa using hs) hj
  obtain ⟨h3, h4⟩ := joinLocals_upper hb hlen
  rw [← hl] at h3 h4
  exact ⟨⟨h3, forall₂_reverse_iff.mp h1⟩, ⟨h4, forall₂_reverse_iff.mp h2⟩⟩

/-- Frames with a common upper bound can be joined, and the result is below that bound. -/
theorem Grounded.joinFrames_least (hg : h.Grounded) {f g u : Frame}
    (hf : f.Under h.Inherits u) (hgu : g.Under h.Inherits u) :
    ∃ k, h.joinFrames f g = .ok k ∧ k.Under h.Inherits u := by
  have hs : f.stack.length = g.stack.length :=
    hf.stack.length_eq.trans hgu.stack.length_eq.symm
  obtain ⟨ts, hj, hts⟩ := hg.joinStack_least (n := 0)
    (forall₂_reverse_iff.mpr hf.stack) (forall₂_reverse_iff.mpr hgu.stack)
  refine ⟨⟨h.joinLocals f.locals g.locals, ts.reverse⟩, ?_, ?_, ?_⟩
  · exact joinFrames_eq_ok.mpr ⟨hs, by rw [reverse_reverse]; exact hj, rfl⟩
  · exact hg.joinLocals_least hf.locals hgu.locals
  · have := forall₂_reverse_iff.mpr hts
    rwa [reverse_reverse] at this

end Hierarchy

/-! ## Instructions are monotone -/

namespace Instr.Yields

variable {ctx : TypingContext}

theorem accepts_mono (hg : ctx.classes.Grounded) {us ts wants : List Ty}
    (hp : Transfer.Accepts ctx ts wants)
    (hu : Forall₂ (Ty.Under ctx.classes.Inherits) us ts) : Transfer.Accepts ctx us wants :=
  forall₂_comp hu hp fun _ _ _ h1 h2 => h1.assignable hg h2

theorem pushed_under {t : Ty} {I : Text → Text → Prop} {us st : List Ty}
    (h : Forall₂ (Ty.Under I) us st) :
    Forall₂ (Ty.Under I) (t.pushed us) (t.pushed st) := by
  unfold Ty.pushed
  split
  · exact h
  · exact .cons .refl h

/-- From a smaller frame an instruction yields a smaller frame. -/
theorem mono (hg : ctx.classes.Grounded) {i : Instr} {f g g' : Frame} (h : i.Yields ctx g g')
    (hfg : f.Under ctx.classes.Inherits g) :
    ∃ f', i.Yields ctx f f' ∧ f'.Under ctx.classes.Inherits g' := by
  obtain ⟨ls, st⟩ := f
  obtain ⟨hl, hs⟩ := hfg
  cases h with
  | nop => exact ⟨_, .nop, hl, hs⟩
  | goto => exact ⟨_, .goto, hl, hs⟩
  | iconst => exact ⟨_, .iconst, hl, .cons .refl hs⟩
  | sconst => exact ⟨_, .sconst, hl, .cons .refl hs⟩
  | null => exact ⟨_, .null, hl, .cons .refl hs⟩
  | @load n t ls' st' ht hu =>
    obtain ⟨a, ha, hat⟩ := forall₂_getElem? hl ht
    obtain ⟨hau, hat⟩ := hat.usable hu
    exact ⟨_, .load ha hau, hl, .cons hat hs⟩
  | @store n t ls' st' hn =>
    obtain ⟨a, as, ha, has, rfl⟩ := forall₂_cons_right_iff.mp hs
    exact ⟨_, .store (hl.length_eq ▸ hn), forall₂_set hl n.toNat (Or.inr ha), has⟩
  | pop =>
    obtain ⟨a, as, ha, has, rfl⟩ := forall₂_cons_right_iff.mp hs
    exact ⟨_, .pop, hl, has⟩
  | dup =>
    obtain ⟨a, as, ha, has, rfl⟩ := forall₂_cons_right_iff.mp hs
    exact ⟨_, .dup, hl, .cons ha (.cons ha has)⟩
  | swap =>
    obtain ⟨a, as, ha, has, rfl⟩ := forall₂_cons_right_iff.mp hs
    obtain ⟨b, bs, hb, hbs, rfl⟩ := forall₂_cons_right_iff.mp has
    exact ⟨_, .swap, hl, .cons hb (.cons ha hbs)⟩
  | arith =>
    obtain ⟨a, as, ha, has, rfl⟩ := forall₂_cons_right_iff.mp hs
    obtain ⟨b, bs, hb, hbs, rfl⟩ := forall₂_cons_right_iff.mp has
    cases ha
    cases hb
    exact ⟨_, .arith, hl, .cons .refl hbs⟩
  | zero =>
    obtain ⟨a, as, ha, has, rfl⟩ := forall₂_cons_right_iff.mp hs
    cases ha
    exact ⟨_, .zero, hl, has⟩
  | nonzero =>
    obtain ⟨a, as, ha, has, rfl⟩ := forall₂_cons_right_iff.mp hs
    cases ha
    exact ⟨_, .nonzero, hl, has⟩
  | less =>
    obtain ⟨a, as, ha, has, rfl⟩ := forall₂_cons_right_iff.mp hs
    obtain ⟨b, bs, hb, hbs, rfl⟩ := forall₂_cons_right_iff.mp has
    cases ha
    cases hb
    exact ⟨_, .less, hl, hbs⟩
  | ifnull hc =>
    obtain ⟨a, as, ha, has, rfl⟩ := forall₂_cons_right_iff.mp hs
    exact ⟨_, .ifnull (ha.isReference.trans hc), hl, has⟩
  | ifnonnull hc =>
    obtain ⟨a, as, ha, has, rfl⟩ := forall₂_cons_right_iff.mp hs
    exact ⟨_, .ifnonnull (ha.isReference.trans hc), hl, has⟩
  | switch =>
    obtain ⟨a, as, ha, has, rfl⟩ := forall₂_cons_right_iff.mp hs
    cases ha
    exact ⟨_, .switch, hl, has⟩
  | @invoke n s ts ls' st' hsym hp =>
    obtain ⟨as, bs, rfl, has, hbs⟩ := forall₂_append_right hs
    refine ⟨_, .invoke hsym (accepts_mono hg hp has), hl, ?_⟩
    exact pushed_under hbs
  | checkcast hc ht =>
    obtain ⟨a, as, ha, has, rfl⟩ := forall₂_cons_right_iff.mp hs
    exact ⟨_, .checkcast hc (ha.isReference.trans ht), hl, .cons .refl has⟩
  | instanceof ht =>
    obtain ⟨a, as, ha, has, rfl⟩ := forall₂_cons_right_iff.mp hs
    exact ⟨_, .instanceof (ha.isReference.trans ht), hl, .cons .refl has⟩
  | raise ht =>
    obtain ⟨a, as, ha, has, rfl⟩ := forall₂_cons_right_iff.mp hs
    exact ⟨_, .raise (ha.assignable hg ht), hl, has⟩
  | ret hr => exact ⟨_, .ret hr, hl, hs⟩
  | retval hr ht =>
    obtain ⟨a, as, ha, has, rfl⟩ := forall₂_cons_right_iff.mp hs
    exact ⟨_, .retval hr (ha.assignable hg ht), hl, has⟩
  | @newrec n l ts ls' st' hrec hp =>
    obtain ⟨as, bs, rfl, has, hbs⟩ := forall₂_append_right hs
    exact ⟨_, .newrec hrec (accepts_mono hg hp has), hl, .cons .refl hbs⟩
  | recget hc hrec ht =>
    obtain ⟨a, as, ha, has, rfl⟩ := forall₂_cons_right_iff.mp hs
    exact ⟨_, .recget (ha.assignable hg hc) hrec ht, hl, .cons .refl has⟩

end Instr.Yields

/-! ## How far a frame can rise -/

section

variable {W : Type} [AddCommMonoid W] [PartialOrder W] [IsOrderedCancelAddMonoid W] {w : Ty → W}

/-- A measure that falls where the members of a list rise falls where the list rises. -/
theorem sum_map_le_and_lt {R : Ty → Ty → Prop} (hr : ∀ {a b}, R a b → a ≠ b → w b < w a)
    {as bs : List Ty} (hab : Forall₂ R as bs) :
    (bs.map w).sum ≤ (as.map w).sum ∧ (as ≠ bs → (bs.map w).sum < (as.map w).sum) := by
  induction hab with
  | nil => exact ⟨le_refl _, fun hne => absurd rfl hne⟩
  | @cons a b as bs hab _ ih =>
    obtain ⟨hle, hlt⟩ := ih
    simp only [map_cons, sum_cons]
    by_cases heq : a = b
    · subst heq
      refine ⟨add_le_add_right hle _, fun hne => ?_⟩
      have hrest : as ≠ bs := fun heq => hne (heq ▸ rfl)
      exact add_lt_add_right (hlt hrest) _
    · have hfall := add_lt_add_of_lt_of_le (hr hab heq) hle
      exact ⟨le_of_lt hfall, fun _ => hfall⟩

/-- A measure that falls where types rise falls where frames rise. -/
theorem Frame.Under.sum_lt {I : Text → Text → Prop} {f g : Frame} (hfg : f.Under I g)
    (hr : ∀ {a b : Ty}, a.LocalUnder I b → a ≠ b → w b < w a) (hne : f ≠ g) :
    (g.locals.map w).sum + (g.stack.map w).sum < (f.locals.map w).sum + (f.stack.map w).sum := by
  obtain ⟨hl, hl'⟩ := sum_map_le_and_lt hr hfg.locals
  obtain ⟨hs, hs'⟩ := sum_map_le_and_lt (fun hab => hr (Or.inr hab)) hfg.stack
  by_cases heq : f.locals = g.locals
  · have hstack : f.stack ≠ g.stack := fun heq' => hne (by cases f; cases g; simp_all)
    exact add_lt_add_of_le_of_lt hl (hs' hstack)
  · exact add_lt_add_of_lt_of_le (hl' heq) hs

end

/-- A bound on how often a type can be replaced by a greater one. -/
def Hierarchy.climb (h : Hierarchy) : Ty → Nat
  | .top => 0
  | .int | .void => 1
  | .ref c => if c = ClassName.object then 1 else 1 + (h.chain 256 c).length
  | .null => 259

/-- A bound on how often a frame can be replaced by a greater one. -/
def Frame.climb (h : Hierarchy) (f : Frame) : Nat :=
  (f.locals.map h.climb).sum + (f.stack.map h.climb).sum

namespace Hierarchy

variable {h : Hierarchy} {a b : Ty}

theorem climb_le (h : Hierarchy) (t : Ty) : h.climb t ≤ 259 := by
  cases t with
  | ref c =>
    have := h.length_chain_le 256 c
    simp only [climb]
    split <;> omega
  | _ => simp [climb]

theorem climb_pos (ha : a ≠ .top) : 0 < h.climb a := by
  cases a with
  | top => exact absurd rfl ha
  | ref c =>
    simp only [climb]
    split <;> omega
  | _ => simp [climb]

theorem Grounded.climb_lt (hg : h.Grounded) (hab : a.Under h.Inherits b) (hne : a ≠ b) :
    h.climb b < h.climb a := by
  cases hab with
  | refl => exact absurd rfl hne
  | @null c =>
    have := h.length_chain_le 256 c
    simp only [climb]
    split <;> omega
  | @ref c d hcd =>
    have hcd' : c ≠ d := fun heq => hne (heq ▸ rfl)
    have hc : c ≠ ClassName.object := by
      rintro rfl
      exact hcd' (hg.inherits_antisymm hcd (Or.inr rfl))
    have hpos := h.length_chain_pos 256 c
    simp only [climb, if_neg hc]
    split
    · omega
    next hd =>
      rcases hcd with hcd | hcd
      · have := hg.length_chain_lt hcd hcd'
        omega
      · exact absurd hcd hd

theorem Grounded.climb_lt_of_localUnder (hg : h.Grounded) (hab : a.LocalUnder h.Inherits b)
    (hne : a ≠ b) : h.climb b < h.climb a := by
  rcases hab with rfl | hab
  · exact climb_pos hne
  · exact hg.climb_lt hab hne

/-- A frame that rises has less far to go. -/
theorem Grounded.frame_climb_lt (hg : h.Grounded) {f g : Frame} (hfg : f.Under h.Inherits g)
    (hne : f ≠ g) : g.climb h < f.climb h :=
  hfg.sum_lt hg.climb_lt_of_localUnder hne

theorem sum_climb_le (h : Hierarchy) (ts : List Ty) : (ts.map h.climb).sum ≤ 259 * ts.length := by
  induction ts with
  | nil => simp
  | cons t ts ih =>
    have := h.climb_le t
    simp only [map_cons, sum_cons, length_cons]
    omega

theorem frame_climb_le (h : Hierarchy) (f : Frame) :
    f.climb h ≤ 259 * (f.locals.length + f.stack.length) := by
  have h1 := h.sum_climb_le f.locals
  have h2 := h.sum_climb_le f.stack
  unfold Frame.climb
  omega

end Hierarchy

end Resumable
