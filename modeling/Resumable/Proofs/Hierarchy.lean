import Mathlib.Logic.Relation
import Mathlib.Tactic.ByContra
import Resumable.Typing.Frame

/-!
# Inheritance

The searches of `Hierarchy` are bounded, so that they end in any table of classes. Where the table
is grounded, that is where the way up from every class ends within 256 steps and ends at the root
where there is one, the bounds do not show: `isSubclass` decides inheritance, inheritance is an
order, and `commonAncestor` is a least upper bound in it. In any other table `commonAncestor` is still
above both classes and below all that both reach within the bound, because a subclass test goes one
step farther than the search.
-/

namespace Resumable

open List

namespace Hierarchy

variable {h : Hierarchy} {a b c d : Text} {n : Nat}

/-! ## Ancestors -/

/-- The class that is `n` steps above a class. -/
def ancestor (h : Hierarchy) : Nat → Text → Option Text
  | 0, c => some c
  | n + 1, c => (h.super c).bind (h.ancestor n)

/-- The root has no superclass, and the way up from any class ends within 256 steps. -/
structure Grounded (h : Hierarchy) : Prop where
  root : h.super ClassName.object = none
  ends : ∀ c, h.ancestor 257 c = none

/-- A class is another one or below it, by way of superclasses or because the other one is the
root. -/
def Inherits (h : Hierarchy) (c d : Text) : Prop :=
  Relation.ReflTransGen (fun a b => h.super a = some b) c d ∨ d = ClassName.object

theorem ancestor_add (m n : Nat) (c : Text) :
    h.ancestor (m + n) c = (h.ancestor m c).bind (h.ancestor n) := by
  induction m generalizing c with
  | zero => simp [ancestor]
  | succ m ih =>
    rw [Nat.succ_add]
    simp only [ancestor]
    cases h.super c with
    | none => rfl
    | some s => simp [ih]

theorem reflTransGen_iff_ancestor :
    Relation.ReflTransGen (fun a b => h.super a = some b) c d ↔ ∃ n, h.ancestor n c = some d := by
  constructor
  · intro hr
    induction hr using Relation.ReflTransGen.head_induction_on with
    | refl => exact ⟨0, rfl⟩
    | head hs _ ih =>
      obtain ⟨n, hn⟩ := ih
      refine ⟨n + 1, ?_⟩
      simp only [ancestor, hs]
      exact hn
  · rintro ⟨n, hn⟩
    induction n generalizing c with
    | zero =>
      cases hn
      exact .refl
    | succ n ih =>
      obtain ⟨s, hs, hn⟩ := Option.bind_eq_some_iff.mp hn
      exact .head hs (ih hn)

theorem mem_chain : d ∈ h.chain n c ↔ ∃ k ≤ n, h.ancestor k c = some d := by
  induction n generalizing c with
  | zero =>
    simp only [chain, mem_singleton, Nat.le_zero]
    constructor
    · rintro rfl
      exact ⟨0, rfl, rfl⟩
    · rintro ⟨_, rfl, hk⟩
      exact (Option.some.inj hk).symm
  | succ n ih =>
    simp only [chain]
    cases hs : h.super c with
    | none =>
      simp only [mem_singleton]
      constructor
      · rintro rfl
        exact ⟨0, Nat.zero_le _, rfl⟩
      · rintro ⟨k, _, hk⟩
        cases k with
        | zero => exact (Option.some.inj hk).symm
        | succ k => simp [ancestor, hs] at hk
    | some s =>
      simp only [mem_cons, ih]
      constructor
      · rintro (rfl | ⟨k, hk, hka⟩)
        · exact ⟨0, Nat.zero_le _, rfl⟩
        · exact ⟨k + 1, Nat.succ_le_succ hk, by simp [ancestor, hs, hka]⟩
      · rintro ⟨k, hk, hka⟩
        cases k with
        | zero => exact Or.inl (Option.some.inj hka).symm
        | succ k =>
          refine Or.inr ⟨k, Nat.le_of_succ_le_succ hk, ?_⟩
          simpa [ancestor, hs] using hka

/-! ## Inheritance -/

theorem Grounded.lt_of_ancestor (hg : h.Grounded) (ha : h.ancestor n c = some d) : n < 257 := by
  by_contra hn
  have hadd := ancestor_add (h := h) 257 (n - 257) c
  rw [Nat.add_sub_cancel' (Nat.le_of_not_lt hn), hg.ends c, ha] at hadd
  cases hadd

theorem eq_root_of_ancestor (hroot : h.super ClassName.object = none)
    (ha : h.ancestor n ClassName.object = some d) : d = ClassName.object := by
  cases n with
  | zero => exact (Option.some.inj ha).symm
  | succ n => simp [ancestor, hroot] at ha

theorem inherits_iff : h.Inherits c d ↔ (∃ n, h.ancestor n c = some d) ∨ d = ClassName.object := by
  rw [Inherits, reflTransGen_iff_ancestor]

theorem Grounded.mem_chain (hg : h.Grounded) (hn : 256 ≤ n) :
    d ∈ h.chain n c ↔ ∃ k, h.ancestor k c = some d := by
  rw [Hierarchy.mem_chain]
  constructor
  · rintro ⟨k, _, hk⟩
    exact ⟨k, hk⟩
  · rintro ⟨k, hk⟩
    exact ⟨k, by have := hg.lt_of_ancestor hk; omega, hk⟩

theorem Grounded.isSubclass_iff (hg : h.Grounded) : h.isSubclass c d ↔ h.Inherits c d := by
  rw [inherits_iff]
  simp only [isSubclass, Bool.or_eq_true, decide_eq_true_eq, hg.mem_chain (n := 257) (by omega)]
  exact or_comm

theorem Inherits.refl : h.Inherits c c := Or.inl .refl

/-- Only the root is above the root. -/
theorem Inherits.eq_root (hroot : h.super ClassName.object = none)
    (hd : h.Inherits ClassName.object d) : d = ClassName.object := by
  rcases hd with hd | hd
  · obtain ⟨n, hn⟩ := reflTransGen_iff_ancestor.mp hd
    exact eq_root_of_ancestor hroot hn
  · exact hd

theorem Inherits.trans (hroot : h.super ClassName.object = none) (hab : h.Inherits a b)
    (hbc : h.Inherits b c) : h.Inherits a c := by
  rcases hab with hab | rfl
  · exact hbc.imp hab.trans id
  · exact Or.inr (hbc.eq_root hroot)

theorem Grounded.inherits_trans (hg : h.Grounded) (hab : h.Inherits a b) (hbc : h.Inherits b c) :
    h.Inherits a c := hab.trans hg.root hbc

/-- No class is strictly above itself. -/
theorem Grounded.ancestor_self (hg : h.Grounded) (ha : h.ancestor n c = some c) : n = 0 := by
  by_contra hn
  have hiter : ∀ k, h.ancestor (k * n) c = some c := by
    intro k
    induction k with
    | zero => simp [ancestor]
    | succ k ih =>
      rw [Nat.succ_mul, ancestor_add, ih]
      exact ha
  have hlt := hg.lt_of_ancestor (hiter 257)
  have : 257 ≤ 257 * n := Nat.le_mul_of_pos_right _ (Nat.pos_of_ne_zero hn)
  omega

theorem Grounded.inherits_antisymm (hg : h.Grounded) (hab : h.Inherits a b)
    (hba : h.Inherits b a) : a = b := by
  rw [inherits_iff] at hab hba
  rcases hab with ⟨n, hn⟩ | rfl
  · rcases hba with ⟨m, hm⟩ | rfl
    · have hself : h.ancestor (n + m) a = some a := by
        rw [ancestor_add, hn]
        exact hm
      have hz := hg.ancestor_self hself
      obtain rfl : n = 0 := by omega
      exact Option.some.inj hn
    · exact (eq_root_of_ancestor hg.root hn).symm
  · rcases hba with ⟨m, hm⟩ | rfl
    · exact eq_root_of_ancestor hg.root hm
    · rfl

/-! ## The common ancestor -/

/-- The first common class on the way up from `b` is below every later one, and not farther from it
than `b` is. -/
theorem find_common {p : Text → Bool} (hf : (h.chain n b).find? p = some d)
    {k : Nat} (hk : k ≤ n) (hc : h.ancestor k b = some c) (hp : p c) :
    ∃ j ≤ k, h.ancestor j d = some c := by
  induction n generalizing b k with
  | zero =>
    obtain rfl : k = 0 := by omega
    cases hc
    simp only [chain, find?_singleton, hp, if_true] at hf
    exact ⟨0, Nat.le_refl 0, by rw [← Option.some.inj hf]; rfl⟩
  | succ n ih =>
    simp only [chain] at hf
    cases hpb : p b with
    | true =>
      have hd : d = b := by
        cases hs : h.super b <;> rw [hs] at hf <;> simp [hpb] at hf <;> exact hf.symm
      exact ⟨k, Nat.le_refl k, hd ▸ hc⟩
    | false =>
      cases k with
      | zero =>
        cases hc
        rw [hpb] at hp
        cases hp
      | succ k =>
        obtain ⟨s, hs, hc⟩ := Option.bind_eq_some_iff.mp hc
        simp only [hs, find?_cons, hpb] at hf
        obtain ⟨j, hj, hjc⟩ := ih hf (Nat.le_of_succ_le_succ hk) hc
        exact ⟨j, Nat.le_succ_of_le hj, hjc⟩

/-- Apart from equal classes and those that only meet in the root, the common ancestor is the first
class on the way up from `b` that is also above `a`. -/
theorem commonAncestor_cases (h : Hierarchy) (a b : Text) :
    (a = b ∧ h.commonAncestor a b = a) ∨
      (∃ d, (h.chain 256 b).find? (fun c => decide (c ∈ h.chain 256 a)) = some d ∧
        h.commonAncestor a b = d) ∨
      ((h.chain 256 b).find? (fun c => decide (c ∈ h.chain 256 a)) = none ∧
        h.commonAncestor a b = ClassName.object) := by
  by_cases hab : a = b
  · exact Or.inl ⟨hab, if_pos hab⟩
  · have heq : h.commonAncestor a b =
        ((h.chain 256 b).find? (fun c => decide (c ∈ h.chain 256 a))).getD ClassName.object :=
      if_neg hab
    rw [heq]
    cases (h.chain 256 b).find? (fun c => decide (c ∈ h.chain 256 a)) with
    | none => exact Or.inr (Or.inr ⟨rfl, rfl⟩)
    | some d => exact Or.inr (Or.inl ⟨d, rfl, rfl⟩)

/-- The way up from a class starts with it. -/
theorem chain_eq_cons (h : Hierarchy) (n : Nat) (c : Text) : ∃ rest, h.chain n c = c :: rest := by
  cases n with
  | zero => exact ⟨[], rfl⟩
  | succ n =>
    rw [chain]
    cases h.super c with
    | none => exact ⟨[], rfl⟩
    | some s => exact ⟨_, rfl⟩

/-- A class that is above another one is their common ancestor. -/
theorem commonAncestor_of_mem_chain (hb : b ∈ h.chain 256 a) : h.commonAncestor a b = b := by
  unfold commonAncestor
  split
  next hab => exact hab
  next =>
    obtain ⟨rest, hrest⟩ := h.chain_eq_cons 256 b
    rw [hrest]
    simp [hb]

theorem inherits_of_mem_chain (hd : d ∈ h.chain n c) : h.Inherits c d := by
  obtain ⟨k, _, hk⟩ := Hierarchy.mem_chain.mp hd
  exact inherits_iff.mpr (Or.inl ⟨k, hk⟩)

theorem inherits_commonAncestor_left : h.Inherits a (h.commonAncestor a b) := by
  obtain ⟨_, hc⟩ | ⟨d, hf, hc⟩ | ⟨_, hc⟩ := h.commonAncestor_cases a b <;> rw [hc]
  · exact .refl
  · have hd : d ∈ h.chain 256 a := by simpa using find?_some hf
    exact inherits_of_mem_chain hd
  · exact Or.inr rfl

theorem inherits_commonAncestor_right : h.Inherits b (h.commonAncestor a b) := by
  obtain ⟨rfl, hc⟩ | ⟨d, hf, hc⟩ | ⟨_, hc⟩ := h.commonAncestor_cases a b <;> rw [hc]
  · exact .refl
  · exact inherits_of_mem_chain (mem_of_find?_eq_some hf)
  · exact Or.inr rfl

theorem Grounded.commonAncestor_inherits (hg : h.Grounded) (ha : h.Inherits a c)
    (hb : h.Inherits b c) : h.Inherits (h.commonAncestor a b) c := by
  obtain ⟨_, hca⟩ | hca := h.commonAncestor_cases a b
  · rwa [hca]
  · rw [inherits_iff] at ha hb ⊢
    rcases ha with ⟨n, hn⟩ | hc
    · rcases hb with ⟨k, hk⟩ | hc
      · have hmem : decide (c ∈ h.chain 256 a) = true :=
          decide_eq_true ((hg.mem_chain (n := 256) (by omega)).mpr ⟨n, hn⟩)
        have hle : k ≤ 256 := by
          have := hg.lt_of_ancestor hk
          omega
        rcases hca with ⟨d, hf, hca⟩ | ⟨hf, _⟩
        · left
          rw [hca]
          obtain ⟨j, -, hj⟩ := find_common (p := fun c => decide (c ∈ h.chain 256 a)) hf hle hk hmem
          exact ⟨j, hj⟩
        · have := find?_eq_none.mp hf c (Hierarchy.mem_chain.mpr ⟨k, hle, hk⟩)
          exact absurd hmem this
      · exact Or.inr hc
    · exact Or.inr hc

/-! ## The way up -/

theorem chain_succ_of_ancestor_none (ha : h.ancestor (n + 1) c = none) :
    h.chain (n + 1) c = h.chain n c := by
  induction n generalizing c with
  | zero =>
    have hs : h.super c = none := by
      cases hs : h.super c with
      | none => rfl
      | some s => simp [ancestor, hs] at ha
    simp [chain, hs]
  | succ n ih =>
    rw [chain]
    cases hs : h.super c with
    | none => simp [chain, hs]
    | some s =>
      have has : h.ancestor (n + 1) s = none := by
        simpa [ancestor, hs] using ha
      simp only [chain, hs]
      exact congrArg (c :: ·) (ih has)

theorem ancestor_succ (hs : h.super c = some d) : h.ancestor (n + 1) c = h.ancestor n d := by
  rw [ancestor, hs]
  rfl

theorem ancestor_root (hs : h.super c = none) : h.ancestor (n + 1) c = none := by
  rw [ancestor, hs]
  rfl

theorem chain_succ (hs : h.super c = some d) : h.chain (n + 1) c = c :: h.chain n d := by
  rw [chain, hs]

/-- The way up from the superclass is shorter. -/
theorem Grounded.length_chain_super (hg : h.Grounded) (hs : h.super c = some d) :
    (h.chain 256 d).length < (h.chain 256 c).length := by
  have hd : h.ancestor 256 d = none := by
    rw [← ancestor_succ hs]
    exact hg.ends c
  rw [chain_succ_of_ancestor_none hd, chain_succ hs]
  exact Nat.lt_succ_self _

theorem length_chain_le (h : Hierarchy) (n : Nat) (c : Text) : (h.chain n c).length ≤ n + 1 := by
  induction n generalizing c with
  | zero => simp [chain]
  | succ n ih =>
    rw [chain]
    split
    next s _ => simpa using ih s
    next => simp

theorem length_chain_pos (h : Hierarchy) (n : Nat) (c : Text) : 0 < (h.chain n c).length := by
  cases n with
  | zero => simp [chain]
  | succ n =>
    rw [chain]
    split <;> simp

/-- The way up from a class strictly above is shorter. -/
theorem Grounded.length_chain_lt (hg : h.Grounded)
    (hr : Relation.ReflTransGen (fun a b => h.super a = some b) c d) (hne : c ≠ d) :
    (h.chain 256 d).length < (h.chain 256 c).length := by
  induction hr using Relation.ReflTransGen.head_induction_on with
  | refl => exact absurd rfl hne
  | @head a b hs _ ih =>
    have hlt := hg.length_chain_super hs
    by_cases hbd : b = d
    · exact hbd ▸ hlt
    · exact Nat.lt_trans (ih hbd) hlt

/-- All built-in classes are right below the root. -/
theorem eq_root_of_builtinSuper (hs : builtinSuper c = some d) : d = ClassName.object := by
  unfold builtinSuper at hs
  split at hs
  · exact (Option.some.inj hs).symm
  · cases hs

/-- The built-in classes alone are grounded. -/
theorem grounded_builtin : Grounded ⟨builtinSuper⟩ where
  root := by decide +kernel
  ends := by
    intro c
    have hroot : builtinSuper ClassName.object = none := by decide +kernel
    cases hs : builtinSuper c with
    | none => exact ancestor_root (n := 256) hs
    | some d =>
      obtain rfl := eq_root_of_builtinSuper hs
      rw [ancestor_succ (n := 256) hs]
      exact ancestor_root (n := 255) hroot

/-- What the joins of a hierarchy need of an order of classes to be upper bounds in it. -/
structure Bounds (h : Hierarchy) (I : Text → Text → Prop) : Prop where
  refl : ∀ c, I c c
  trans : ∀ {a b c}, I a b → I b c → I a c
  left : ∀ a b, I a (h.commonAncestor a b)
  right : ∀ a b, I b (h.commonAncestor a b)

/-- Below a root the joins are upper bounds, however long the way up is. -/
theorem bounds_of_root (hroot : h.super ClassName.object = none) : h.Bounds h.Inherits where
  refl _ := .refl
  trans := Inherits.trans hroot
  left _ _ := inherits_commonAncestor_left
  right _ _ := inherits_commonAncestor_right

theorem Grounded.bounds (hg : h.Grounded) : h.Bounds h.Inherits := bounds_of_root hg.root

/-- In any hierarchy the joins are upper bounds if classes are not told apart. -/
theorem bounds_true (h : Hierarchy) : h.Bounds fun _ _ => True where
  refl _ := trivial
  trans _ _ := trivial
  left _ _ := trivial
  right _ _ := trivial

/-! ## The bounds of the searches -/

/-- A subclass test looks one step farther than a search for a common ancestor. -/
theorem isSubclass_of_ancestor (hn : n ≤ 257) (ha : h.ancestor n c = some d) : h.isSubclass c d := by
  unfold isSubclass
  rw [Bool.or_eq_true, decide_eq_true_eq, decide_eq_true_eq]
  exact .inr (mem_chain.mpr ⟨n, hn, ha⟩)

theorem isSubclass_of_mem_chain (hd : d ∈ h.chain 256 c) : h.isSubclass c d := by
  obtain ⟨k, hk, hka⟩ := mem_chain.mp hd
  exact isSubclass_of_ancestor (Nat.le_succ_of_le hk) hka

theorem isSubclass_refl (h : Hierarchy) (c : Text) : h.isSubclass c c :=
  isSubclass_of_ancestor (Nat.zero_le 257) rfl

theorem isSubclass_root (h : Hierarchy) (c : Text) : h.isSubclass c ClassName.object := by
  simp [isSubclass]

/-- A common ancestor accepts both classes, also where the search for it was cut short. -/
theorem isSubclass_commonAncestor (h : Hierarchy) (a b : Text) :
    h.isSubclass a (h.commonAncestor a b) ∧ h.isSubclass b (h.commonAncestor a b) := by
  obtain ⟨rfl, hc⟩ | ⟨d, hf, hc⟩ | ⟨_, hc⟩ := h.commonAncestor_cases a b <;> rw [hc]
  · exact ⟨h.isSubclass_refl a, h.isSubclass_refl a⟩
  · have hd : d ∈ h.chain 256 a := by simpa using find?_some hf
    exact ⟨isSubclass_of_mem_chain hd, isSubclass_of_mem_chain (mem_of_find?_eq_some hf)⟩
  · exact ⟨h.isSubclass_root a, h.isSubclass_root b⟩

/-- A class within reach of both searches is above the common ancestor. -/
theorem commonAncestor_isSubclass {m : Nat} (hm : m ≤ 256) (hn : n ≤ 256)
    (ha : h.ancestor m a = some c) (hb : h.ancestor n b = some c) :
    h.isSubclass (h.commonAncestor a b) c := by
  have hmem : decide (c ∈ h.chain 256 a) = true := decide_eq_true (mem_chain.mpr ⟨m, hm, ha⟩)
  obtain ⟨_, hca⟩ | ⟨d, hf, hca⟩ | ⟨hf, _⟩ := h.commonAncestor_cases a b
  · rw [hca]
    exact isSubclass_of_ancestor (by omega) ha
  · obtain ⟨j, hj, hjc⟩ := find_common (p := fun c => decide (c ∈ h.chain 256 a)) hf hn hb hmem
    rw [hca]
    exact isSubclass_of_ancestor (by omega) hjc
  · have := find?_eq_none.mp hf c (mem_chain.mpr ⟨n, hn, hb⟩)
    exact absurd hmem this

theorem assignable_self {t : Ty} (ht : t ≠ .void) : h.assignable t t := by
  cases t with
  | void => exact absurd rfl ht
  | ref c => exact h.isSubclass_refl c
  | _ => rfl

/-- **Joins are least upper bounds, whatever the classes are.** The common ancestor of two classes is
above both, and below every class that both reach within 256 steps, in tables with cycles and with
ways of any length; and a join of two types accepts both. -/
theorem commonAncestor_least (h : Hierarchy) :
    (∀ a b : Text,
      h.isSubclass a (h.commonAncestor a b) ∧ h.isSubclass b (h.commonAncestor a b) ∧
      ∀ (c : Text) (m n : Nat), m ≤ 256 → n ≤ 256 → h.ancestor m a = some c →
        h.ancestor n b = some c → h.isSubclass (h.commonAncestor a b) c) ∧
    ∀ x y t : Ty, x ≠ .void → y ≠ .void → h.join x y = some t →
      h.assignable x t ∧ h.assignable y t := by
  constructor
  · intro a b
    obtain ⟨hleft, hright⟩ := h.isSubclass_commonAncestor a b
    exact ⟨hleft, hright, fun c m n hm hn ha hb => commonAncestor_isSubclass hm hn ha hb⟩
  · intro x y t hx _ hjoin
    unfold join at hjoin
    by_cases heq : x = y
    · rw [if_pos heq] at hjoin
      cases hjoin
      exact ⟨assignable_self hx, heq ▸ assignable_self hx⟩
    · rw [if_neg heq] at hjoin
      match x, y, hjoin with
      | .null, .ref c, rfl => exact ⟨rfl, h.isSubclass_refl c⟩
      | .ref c, .null, rfl => exact ⟨h.isSubclass_refl c, rfl⟩
      | .ref c, .ref d, rfl => exact h.isSubclass_commonAncestor c d

/-- Two classes that each declare the other as their superclass. -/
theorem commonAncestor_least_cycle :
    (ofClasses [⟨"A", "B"⟩, ⟨"B", "A"⟩] .none).ancestor 256 "A" = some "A" ∧
      (ofClasses [⟨"A", "B"⟩, ⟨"B", "A"⟩] .none).ancestor 255 "B" = some "A" ∧
      (ofClasses [⟨"A", "B"⟩, ⟨"B", "A"⟩] .none).commonAncestor "A" "B" = "B" ∧
      (ofClasses [⟨"A", "B"⟩, ⟨"B", "A"⟩] .none).isSubclass "B" "A" := by
  have hA : (ofClasses [⟨"A", "B"⟩, ⟨"B", "A"⟩] .none).ancestor 256 "A" = some "A" := by decide +kernel
  have hB : (ofClasses [⟨"A", "B"⟩, ⟨"B", "A"⟩] .none).ancestor 255 "B" = some "A" := by decide +kernel
  have hcommon : (ofClasses [⟨"A", "B"⟩, ⟨"B", "A"⟩] .none).commonAncestor "A" "B" = "B" := by
    decide +kernel
  refine ⟨hA, hB, hcommon, ?_⟩
  have hleast := ((commonAncestor_least _).1 "A" "B").2.2 "A" 256 255 (by omega) (by omega) hA hB
  rwa [hcommon] at hleast

end Hierarchy

end Resumable
