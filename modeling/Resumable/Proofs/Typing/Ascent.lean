import Mathlib.Algebra.Order.BigOperators.Group.Finset
import Mathlib.Algebra.Order.Monoid.Prod
import Resumable.CodeUnit.Reader
import Resumable.Proofs.Typing.Worklist

/-!
# Runs of the worklist that end

In a grounded hierarchy the rounds of the worklist are bounded by a number. Here the way up from a
class may have any length, and all that is asked is that it ends and that nothing is above the root.
Every run ends then, too: blocks are reached once, a null turns into a class once, and after that
classes only go up. So what is left to do falls in the lexicographic order.

Both conditions are needed. Two classes that are above each other are joined to the one that came in
last, and a loop that swaps them is never done. And if a class is above the root, a join that falls
back on the root can be undone by one that goes up from it.
-/

namespace Resumable

open Finset

/-! ## Ways up -/

namespace Hierarchy

variable {h : Hierarchy} {c d : Text}

/-- The root has no superclass, and the way up from any class ends. -/
structure Founded (h : Hierarchy) : Prop where
  root : h.super ClassName.object = none
  ends : ∀ c, ∃ n, h.ancestor n c = none

namespace Founded

variable (hf : h.Founded)

/-- The number of classes on the way up from a class. -/
def height (c : Text) : Nat := Nat.find (hf.ends c)

theorem height_super (hs : h.super c = some d) : hf.height d < hf.height c := by
  have hc : h.ancestor (hf.height c) c = none := Nat.find_spec (hf.ends c)
  cases hn : hf.height c with
  | zero =>
    rw [hn] at hc
    cases hc
  | succ n =>
    rw [hn, ancestor_succ hs] at hc
    exact Nat.lt_succ_of_le (Nat.find_min' (hf.ends d) hc)

theorem height_pos (c : Text) : 0 < hf.height c := by
  rw [Nat.pos_iff_ne_zero]
  intro h0
  have hc : h.ancestor (hf.height c) c = none := Nat.find_spec (hf.ends c)
  rw [h0] at hc
  cases hc

theorem height_lt (hr : Relation.ReflTransGen (fun a b => h.super a = some b) c d) (hne : c ≠ d) :
    hf.height d < hf.height c := by
  induction hr using Relation.ReflTransGen.head_induction_on with
  | refl => exact absurd rfl hne
  | @head a b hs _ ih =>
    have hlt := hf.height_super hs
    by_cases hbd : b = d
    · exact hbd ▸ hlt
    · exact Nat.lt_trans (ih hbd) hlt

/-- How far a type can still rise. A null can turn into a class of any height, so it counts for more
than all classes. -/
def rise : Ty → ℕ ×ₗ ℕ
  | .top => 0
  | .int | .void => toLex (0, 1)
  | .ref c => toLex (0, if c = ClassName.object then 1 else 1 + hf.height c)
  | .null => toLex (1, 0)

/-- A type that rises has less far to go. -/
theorem rise_lt {a b : Ty} (hab : a.LocalUnder h.Inherits b) (hne : a ≠ b) :
    hf.rise b < hf.rise a := by
  rcases hab with rfl | hab
  · show toLex (0, 0) < hf.rise a
    cases a with
    | top => exact absurd rfl hne
    | ref c =>
      refine Prod.Lex.toLex_lt_toLex.mpr (Or.inr ⟨rfl, ?_⟩)
      show 0 < if c = ClassName.object then 1 else 1 + hf.height c
      split <;> omega
    | _ => simp [rise, Prod.Lex.toLex_lt_toLex]
  · cases hab with
    | refl => exact absurd rfl hne
    | null => simp [rise, Prod.Lex.toLex_lt_toLex]
    | @ref c d hcd =>
      have hcd' : c ≠ d := fun heq => hne (heq ▸ rfl)
      have hc : c ≠ ClassName.object := by
        rintro rfl
        exact hcd' (hcd.eq_root hf.root).symm
      have hpos := hf.height_pos c
      refine Prod.Lex.toLex_lt_toLex.mpr (Or.inr ⟨rfl, ?_⟩)
      simp only [if_neg hc]
      split
      · omega
      next hd =>
        have := hf.height_lt (hcd.resolve_right hd) hcd'
        omega

end Founded

end Hierarchy

/-! ## What is left to do -/

namespace Subject

open Propagation

variable {s : Subject} {f : Frame} {p p' : Propagation} {n b : Nat}

/-- How far an entry frame can still rise. A block that was not reached counts for more than any
frame. -/
def distance (hf : s.ctx.classes.Founded) : Option Frame → ℕ ×ₗ ℕ ×ₗ ℕ
  | none => toLex (1, 0)
  | some f => toLex (0, (f.locals.map hf.rise).sum + (f.stack.map hf.rise).sum)

/-- What is left to do: the distances of all blocks, and the queue where they stay the same. -/
def remainder (hf : s.ctx.classes.Founded) (p : Propagation) : (ℕ ×ₗ ℕ ×ₗ ℕ) ×ₗ ℕ :=
  toLex (∑ b ∈ range s.graph.blocks.length, distance hf (p.entryOf b), p.queue.length)

variable (hf : s.ctx.classes.Founded)

theorem remainder_enter (hlt : b < p.entries.length)
    (hlen : p.entries.length = s.graph.blocks.length)
    (hfall : distance hf (some f) < distance hf (p.entryOf b)) :
    remainder hf (p.enter b f) < remainder hf p := by
  refine Prod.Lex.toLex_lt_toLex.mpr (Or.inl (sum_lt_sum ?_ ⟨b, mem_range.mpr (hlen ▸ hlt), ?_⟩))
  · intro c _
    rw [entryOf_enter hlt]
    split
    next hc => exact le_of_lt (hc ▸ hfall)
    next => exact le_refl _
  · rw [entryOf_enter hlt, if_pos rfl]
    exact hfall

/-- Carrying a frame to a block leaves less to do if it changes anything. -/
theorem flow_remainder_le {origin target : Nat} (hp : p.Sized n)
    (hlen : p.entries.length = s.graph.blocks.length) (hl : f.locals.length = n)
    (h : s.flow origin p target f = .ok p') : remainder hf p' ≤ remainder hf p := by
  obtain ⟨hlt, ⟨hnone, rfl⟩ | ⟨old, new, hold, hj, rfl⟩⟩ := flow_cases h
  · refine le_of_lt (remainder_enter hf hlt hlen ?_)
    rw [hnone]
    exact Prod.Lex.toLex_lt_toLex.mpr (Or.inl Nat.zero_lt_one)
  · split
    next => exact le_refl _
    next hne =>
      refine le_of_lt (remainder_enter hf hlt hlen ?_)
      have hup := (Hierarchy.joinFrames_upper (Hierarchy.bounds_of_root hf.root)
        ((hp hold).trans hl.symm) hj).1
      rw [hold]
      exact Prod.Lex.toLex_lt_toLex.mpr (Or.inr ⟨rfl, hup.sum_lt hf.rise_lt (Ne.symm hne)⟩)

/-- Spreading a block leaves no more to do. -/
theorem spread_remainder_le (hp : p.Sized n) (hlen : p.entries.length = s.graph.blocks.length)
    (h : s.spread p b = .ok p') :
    p'.Sized n ∧ p'.entries.length = s.graph.blocks.length ∧ remainder hf p' ≤ remainder hf p := by
  obtain ⟨B, k, seen, g, -, hk, hwalks, hmotive⟩ := spread_induction h
  obtain ⟨hgl, hseen⟩ := hwalks.locals_length
  refine hmotive (fun q => q.Sized n ∧ q.entries.length = s.graph.blocks.length ∧
    remainder hf q ≤ remainder hf p) ⟨hp, hlen, le_refl _⟩ ?_
  rintro origin c f q q' hcarried ⟨hq, hqlen, hle⟩ hflow
  have hl : f.locals.length = n := by
    rcases hcarried with ⟨x, hx, h, -, -, -, rfl⟩ | ⟨-, rfl⟩
    · exact (hseen x hx).trans (hp hk)
    · exact hgl.trans (hp hk)
  obtain ⟨hq', hrises, -⟩ := flow_rises (Hierarchy.bounds_of_root hf.root) hq hl hflow
  exact ⟨hq', hrises.length.trans hqlen, (flow_remainder_le hf hq hqlen hl hflow).trans hle⟩

/-! ## Runs -/

/-- The outcome of the run that takes the oldest block in every round. -/
inductive Settles (s : Subject) : Propagation → Attempt Propagation → Prop
  | rest {p : Propagation} (hq : p.queue = []) : Settles s p (.ok p)
  | fails {p : Propagation} {b : Nat} {queue : List Nat} {e : Failure} (hq : p.queue = b :: queue)
      (hs : s.spread { p with queue } b = .error e) : Settles s p (.error e)
  | round {p p' : Propagation} {b : Nat} {queue : List Nat} {r : Attempt Propagation} (hq : p.queue = b :: queue)
      (hs : s.spread { p with queue } b = .ok p') (hr : Settles s p' r) : Settles s p r

/-- A run that has an outcome is what `settle` does with enough rounds. -/
theorem Settles.settle {r : Attempt Propagation} (h : s.Settles p r) :
    ∃ rounds, ∀ more, s.settle (rounds + more) p = r := by
  induction h with
  | rest hq =>
    refine ⟨0, fun more => ?_⟩
    cases h : 0 + more <;> simp [Subject.settle, hq]
  | @fails p b queue e hq hs =>
    refine ⟨1, fun more => ?_⟩
    rw [Nat.add_comm, Subject.settle, hq]
    show (do let p ← s.spread { p with queue } b; s.settle more p) = .error e
    rw [hs]
    rfl
  | @round p p' b queue r hq hs _ ih =>
    obtain ⟨rounds, hrounds⟩ := ih
    refine ⟨rounds + 1, fun more => ?_⟩
    rw [Nat.add_right_comm, Subject.settle, hq]
    show (do let p ← s.spread { p with queue } b; s.settle (rounds + more) p) = r
    rw [hs]
    exact hrounds more

include hf in
/-- From frames of one size every run has an outcome. -/
theorem exists_settles (hp : p.Sized n) (hlen : p.entries.length = s.graph.blocks.length) :
    ∃ r, s.Settles p r := by
  induction hm : remainder hf p using WellFoundedLT.induction generalizing p with
  | ind m ih =>
    subst hm
    cases hq : p.queue with
    | nil => exact ⟨_, .rest hq⟩
    | cons b queue =>
      have htake : remainder hf { p with queue } < remainder hf p := by
        refine Prod.Lex.toLex_lt_toLex.mpr (Or.inr ⟨rfl, ?_⟩)
        rw [hq]
        exact Nat.lt_succ_self _
      cases hs : s.spread { p with queue } b with
      | error e => exact ⟨_, .fails hq hs⟩
      | ok p' =>
        obtain ⟨hp', hlen', hle⟩ :=
          spread_remainder_le hf (p := { p with queue }) hp hlen hs
        obtain ⟨r, hr⟩ := ih _ (lt_of_le_of_lt hle htake) hp' hlen' rfl
        exact ⟨r, .round hq hs hr⟩

theorem sized_initial (s : Subject) (entry : Frame) :
    (s.initial entry).Sized entry.locals.length := by
  intro b f hf
  rw [entryOf_eq_some, initial, List.getElem?_set] at hf
  split at hf
  · split at hf
    · cases hf
      rfl
    · cases hf
  · rw [List.getElem?_map] at hf
    cases hb : s.graph.blocks[b]? <;> rw [hb] at hf <;> cases hf

/-- What a round comes to, if there is one and it does not fail. -/
def round (s : Subject) (p : Propagation) : Option Propagation :=
  match p.queue with
  | [] => none
  | b :: queue => (s.spread { p with queue } b).toOption

/-- Where every round leads to another one, a run has no outcome. -/
theorem not_settles {P : Propagation → Prop} (hP : ∀ p, P p → ∃ p', s.round p = some p' ∧ P p')
    (hp : P p) : ¬ ∃ r, s.Settles p r := by
  rintro ⟨r, h⟩
  -- The induction is over the run: its last round would be a state of which nothing follows.
  induction h with
  | rest hq =>
    obtain ⟨p', hround, _⟩ := hP _ hp
    simp [round, hq] at hround
  | fails hq hs =>
    obtain ⟨p', hround, _⟩ := hP _ hp
    simp [round, hq, hs, Except.toOption] at hround
  | round hq hs _ ih =>
    obtain ⟨p', hround, hp'⟩ := hP _ hp
    simp only [round, hq, hs, Except.toOption, Option.some.injEq] at hround
    subst hround
    exact ih hp'

end Subject

namespace Analyzer

/-- **The analysis of a body ends** if the way up from every class ends and nothing is above the
root. -/
theorem settles_of_founded (a : Analyzer) (f : Func) (is : List Instr) (g : Graph)
    (hf : a.classes.Founded) :
    ∃ r, (a.subject f is g).Settles
        ((a.subject f is g).initial (Subject.entryFrame f.params f.maxLocals.toNat)) r ∧
      ∃ rounds, ∀ more, (a.subject f is g).settle (rounds + more)
        ((a.subject f is g).initial (Subject.entryFrame f.params f.maxLocals.toNat)) = r := by
  obtain ⟨r, hr⟩ := Subject.exists_settles (s := a.subject f is g)
    (p := (a.subject f is g).initial (Subject.entryFrame f.params f.maxLocals.toNat)) hf
    (Subject.sized_initial _ _) (by simp [Subject.initial])
  exact ⟨r, hr, hr.settle⟩

/-! ## Runs without an end -/

/-- Swaps its two parameters for ever. -/
def swapFunc : Func where
  name := "f"
  params := [.ref "A", .ref "B"]
  code := [0x10, 0x00, 0x10, 0x01, 0x11, 0x00, 0x11, 0x01, 0x30, 0x00]
  maxStack := 2
  maxLocals := 2

/-- The body of `swapFunc`. -/
def swapBody : List Instr := [.load 0, .load 1, .store 0, .store 1, .goto 0]

def swapUnit (classes : List ClassDecl) : CodeUnit where
  strings := ["f", "A", "B"]
  classes := classes
  functions := [swapFunc]

/-- The analyzer of a unit without other classes than its own. -/
def alone (u : CodeUnit) : Analyzer := { unit := u, classes := u.hierarchy .none }

theorem settles_of_founded_swap :
    (alone (swapUnit [⟨"A", "B"⟩])).classes.Founded ∧
      ∃ r, ((alone (swapUnit [⟨"A", "B"⟩])).subject swapFunc swapBody
          (Graph.assemble swapBody [] [])).Settles
        (((alone (swapUnit [⟨"A", "B"⟩])).subject swapFunc swapBody
          (Graph.assemble swapBody [] [])).initial ⟨[.ref "A", .ref "B"], []⟩) r := by
  have hroot : (alone (swapUnit [⟨"A", "B"⟩])).classes.super ClassName.object = none := by
    decide +kernel
  have hfounded : (alone (swapUnit [⟨"A", "B"⟩])).classes.Founded := by
    refine ⟨hroot, fun c => ?_⟩
    by_cases hc : c = "A"
    · subst hc
      exact ⟨2, by decide +kernel⟩
    · have hsuper : (alone (swapUnit [⟨"A", "B"⟩])).classes.super c = builtinSuper c := by
        have hfind : [(⟨"A", "B"⟩ : ClassDecl)].reverse.find? (·.name = c) = none := by
          simp [Ne.symm hc]
        unfold alone CodeUnit.hierarchy Hierarchy.ofClasses
        dsimp only [swapUnit]
        rw [hfind]
        rfl
      cases hs : builtinSuper c with
      | none => exact ⟨1, Hierarchy.ancestor_root (hsuper.trans hs)⟩
      | some d =>
        obtain rfl := Hierarchy.eq_root_of_builtinSuper hs
        refine ⟨2, ?_⟩
        rw [Hierarchy.ancestor_succ (hsuper.trans hs)]
        exact Hierarchy.ancestor_root hroot
  obtain ⟨r, hr, _⟩ := settles_of_founded (alone (swapUnit [⟨"A", "B"⟩])) swapFunc swapBody
    (Graph.assemble swapBody [] []) hfounded
  exact ⟨hfounded, r, hr⟩

/-- The frames of `swapFunc` in a round. -/
def swapState (a b : Text) : Propagation := ⟨[some ⟨[.ref a, .ref b], []⟩], [0]⟩

/-- Classes that are above each other change places in every round. -/
theorem round_swap {s : Subject} {a b : Text} (hbody : s.body = swapBody)
    (hgraph : s.graph = Graph.assemble swapBody [] []) (hne : a ≠ b)
    (hab : b ∈ s.ctx.classes.chain 256 a) (hba : a ∈ s.ctx.classes.chain 256 b) :
    s.round (swapState a b) = some (swapState b a) := by
  have hjoin : s.ctx.classes.joinFrames ⟨[.ref a, .ref b], []⟩ ⟨[.ref b, .ref a], []⟩ =
      .ok ⟨[.ref b, .ref a], []⟩ := by
    simp [Hierarchy.joinFrames, Hierarchy.joinLocals, Hierarchy.joinStack, Hierarchy.join, hne, hne.symm,
      Hierarchy.commonAncestor_of_mem_chain hab, Hierarchy.commonAncestor_of_mem_chain hba]
  obtain ⟨ctx, body, graph⟩ := s
  subst hbody hgraph
  let s : Subject := ⟨ctx, swapBody, Graph.assemble swapBody [] []⟩
  let p : Propagation := ⟨[some ⟨[.ref a, .ref b], []⟩], []⟩
  have hspread : s.spread p 0 = s.flow 4 p 0 ⟨[.ref b, .ref a], []⟩ := rfl
  have hflow : s.flow 4 p 0 ⟨[.ref b, .ref a], []⟩ = .ok (swapState b a) := by
    have hnew : (⟨[.ref b, .ref a], []⟩ : Frame) ≠ ⟨[.ref a, .ref b], []⟩ := by
      simp [hne.symm]
    rw [Subject.flow_of_join rfl hjoin, if_neg hnew]
    rfl
  show (s.spread p 0).toOption = _
  rw [hspread, hflow]
  rfl

/-- Keeps one or the other of its parameters in local 2, in a loop. -/
def pivotFunc : Func where
  name := "f"
  params := [.ref "S", .ref "X"]
  code := [0x10, 0x00, 0x11, 0x02, 0x10, 0x01, 0x11, 0x02, 0x01, 0x00, 0x36, 0x00, 0x01, 0x02, 0x06,
    0x10, 0x00, 0x11, 0x02, 0x01, 0x00, 0x36, 0x00, 0x01, 0x02, 0x06]
  maxStack := 1
  maxLocals := 3

/-- The body of `pivotFunc`. -/
def pivotBody : List Instr :=
  [.load 0, .store 2, .load 1, .store 2, .iconst 0, .switch 0 [2] 6, .load 0, .store 2, .iconst 0,
    .switch 0 [2] 6]

/-- A unit with a class above the root. -/
def pivotUnit : CodeUnit where
  strings := ["f", "S", "X", "Object"]
  classes := [⟨"Object", "S"⟩]
  functions := [pivotFunc]

/-- The frames of `pivotFunc` in a round: what local 2 is at the two blocks of the loop. -/
def pivotState (t t' : Option Ty) (queue : List Nat) : Propagation where
  entries := [some .top, t, t'].map (·.map fun t => ⟨[.ref "S", .ref "X", t], []⟩)
  queue

/-- All rounds of the analysis of `pivotFunc`. -/
def pivotStates : List Propagation :=
  [pivotState none none [0], pivotState (some (.ref "S")) none [1],
    pivotState (some (.ref "Object")) (some (.ref "X")) [1, 2],
    pivotState (some (.ref "Object")) (some (.ref "X")) [2],
    pivotState (some (.ref "S")) (some (.ref "Object")) [1, 2],
    pivotState (some (.ref "Object")) (some (.ref "Object")) [2, 1],
    pivotState (some (.ref "S")) (some (.ref "S")) [1, 2]]

/-- The parser accepts both units, their functions have graphs, and the analysis has no end: in the
first one two classes are above each other, in the second one a class is above the root. -/
theorem not_settles_swap :
    (CodeUnit.parse (swapUnit [⟨"A", "B"⟩, ⟨"B", "A"⟩]).encode =
        .ok (swapUnit [⟨"A", "B"⟩, ⟨"B", "A"⟩]) ∧
      (swapUnit [⟨"A", "B"⟩, ⟨"B", "A"⟩]).bodyOf swapFunc = .ok swapBody ∧
      Graph.build swapFunc.name swapBody swapFunc.handlers [] = .ok (Graph.assemble swapBody [] []) ∧
      ¬ ∃ r, ((alone (swapUnit [⟨"A", "B"⟩, ⟨"B", "A"⟩])).subject swapFunc swapBody
          (Graph.assemble swapBody [] [])).Settles
        (((alone (swapUnit [⟨"A", "B"⟩, ⟨"B", "A"⟩])).subject swapFunc swapBody
          (Graph.assemble swapBody [] [])).initial
            (Subject.entryFrame swapFunc.params swapFunc.maxLocals.toNat)) r) ∧
    CodeUnit.parse pivotUnit.encode = .ok pivotUnit ∧
      pivotUnit.bodyOf pivotFunc = .ok pivotBody ∧
      Graph.build pivotFunc.name pivotBody pivotFunc.handlers [] =
        .ok (Graph.assemble pivotBody [] []) ∧
      ¬ ∃ r, ((alone pivotUnit).subject pivotFunc pivotBody (Graph.assemble pivotBody [] [])).Settles
        (((alone pivotUnit).subject pivotFunc pivotBody (Graph.assemble pivotBody [] [])).initial
          (Subject.entryFrame pivotFunc.params pivotFunc.maxLocals.toNat)) r := by
  refine ⟨⟨toOption_eq_some.mp (by decide +kernel), by decide +kernel, rfl, ?_⟩,
    toOption_eq_some.mp (by decide +kernel), by decide +kernel, rfl, ?_⟩
  · refine Subject.not_settles (P := fun p => p = swapState "A" "B" ∨ p = swapState "B" "A") ?_
      (.inl rfl)
    rintro p (rfl | rfl)
    · exact ⟨_, round_swap rfl rfl (by decide) (by decide +kernel) (by decide +kernel), .inr rfl⟩
    · exact ⟨_, round_swap rfl rfl (by decide) (by decide +kernel) (by decide +kernel), .inl rfl⟩
  · refine Subject.not_settles (P := (· ∈ pivotStates)) ?_ (show _ ∈ pivotStates by decide +kernel)
    have hrounds : ∀ p ∈ pivotStates, ∃ p' ∈ pivotStates, ((alone pivotUnit).subject pivotFunc pivotBody
        (Graph.assemble pivotBody [] [])).round p = some p' := by decide +kernel
    intro p hp
    obtain ⟨p', hp', hround⟩ := hrounds p hp
    exact ⟨p', hround, hp'⟩

end Analyzer

end Resumable
