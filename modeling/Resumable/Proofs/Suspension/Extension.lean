import Resumable.Proofs.CodeUnit.Body
import Resumable.Proofs.Emission.Tables
import Resumable.Suspension.Plan

/-!
# Plans in units that grow

The tables of a unit grow while its functions become state machines. A body that passed its checks
refers to entries that are there, and these keep their places. So it is typed, read for live positions
and planned in the grown unit as it was before, down to the faults that are found.
-/

namespace Resumable

open List

variable {u v : CodeUnit} {n : UInt32} {i : Instr}

/-! ## Instructions -/

namespace Instr

theorem RefersTo.mono {ok : UInt32 → Prop} (h : i.RefersTo u ok) (hu : u.Extends v) : i.RefersTo v ok := by
  cases i with
  | sconst n | checkcast n | instanceof n => exact h.imp fun _ => item?_mono hu.strings
  | invoke n => exact h.imp fun _ => item?_mono hu.symbols
  | newrec n => exact h.imp fun _ => item?_mono hu.records
  | recget n f =>
    obtain ⟨l, t, hl, ht⟩ := h
    exact ⟨l, t, item?_mono hu.records hl, ht⟩
  | _ => exact h

theorem Refers.mono {locals locals' : UInt32} (h : i.Refers u locals) (hu : u.Extends v)
    (hl : locals ≤ locals') : i.Refers v locals' :=
  refers_iff.mpr (((refers_iff.mp h).mono hu).weaken fun _ _ hn => UInt32.lt_of_lt_of_le hn hl)

theorem stackEffect_eq (h : i.Refers u n) (hu : u.Extends v) : i.stackEffect v = i.stackEffect u := by
  cases i with
  | invoke k =>
    obtain ⟨s, hs⟩ := h
    simp only [stackEffect, hs, item?_mono hu.symbols hs]
  | newrec k =>
    obtain ⟨l, hl⟩ := h
    simp only [stackEffect, hl, item?_mono hu.records hl]
  | branch test t => cases test <;> rfl
  | _ => rfl

theorem callee?_eq (h : i.Refers u n) (hu : u.Extends v) : v.callee? i = u.callee? i := by
  cases i with
  | invoke k =>
    obtain ⟨s, hs⟩ := h
    simp only [CodeUnit.callee?, hs, item?_mono hu.symbols hs]
  | _ => rfl

end Instr

/-- What an instruction does to a frame. -/
theorem Transfer.apply_eq {ctx : TypingContext} {pc : Nat} (h : i.Refers ctx.unit n)
    (hu : ctx.unit.Extends v) : apply { ctx with unit := v } pc i = apply ctx pc i := by
  have hentry {α : Type} {table table' : List α} {k : UInt32} {a : α} (ht : table <+: table')
      (ha : item? table k = some a) : entry table' k = entry table k := by
    unfold entry
    rw [ha, item?_mono ht ha]
  cases i with
  | invoke k =>
    obtain ⟨s, hs⟩ := h
    show (entry v.symbols k >>= _) = (entry ctx.unit.symbols k >>= _)
    rw [hentry hu.symbols hs]
    rfl
  | checkcast k =>
    obtain ⟨s, hs⟩ := h
    show (entry v.strings k >>= _) = (entry ctx.unit.strings k >>= _)
    rw [hentry hu.strings hs]
    rfl
  | newrec k =>
    obtain ⟨l, hl⟩ := h
    show (entry v.records k >>= _) = (entry ctx.unit.records k >>= _)
    rw [hentry hu.records hl]
    rfl
  | recget k field =>
    obtain ⟨l, t, hl, _⟩ := h
    show (popAs ctx pc _ >>= fun _ => entry v.records k >>= _) =
      (popAs ctx pc _ >>= fun _ => entry ctx.unit.records k >>= _)
    rw [hentry hu.records hl]
  | branch test t => cases test <;> rfl
  | _ => rfl

/-! ## Frames -/

namespace Subject

variable {s : Subject}

/-- The same body in another unit. -/
def moved (s : Subject) (v : CodeUnit) : Subject := { s with ctx.unit := v }

section

variable (h : ∀ i ∈ s.body, i.Refers s.ctx.unit n) (hu : s.ctx.unit.Extends v)

include h hu

theorem walk_moved {σ : Type} (visit : σ → Nat → Frame → Attempt σ) (l : List Nat) (acc : σ)
    (t : TypingState) : (s.moved v).walk visit l acc t = s.walk visit l acc t := by
  induction l generalizing acc t with
  | nil => rfl
  | cons k rest ih =>
    unfold walk
    cases visit acc k t.frame with
    | error e => rfl
    | ok acc =>
      show (Attempt.ofOption s.body[k]? >>= _) = (Attempt.ofOption s.body[k]? >>= _)
      cases hi : s.body[k]? with
      | none => rfl
      | some i =>
        have hrun : Transfer.run (s.moved v).ctx k i t = Transfer.run s.ctx k i t := by
          show ExceptT.run (Transfer.apply { s.ctx with unit := v } k i) t = _
          rw [Transfer.apply_eq (h i (mem_of_getElem? hi)) hu]
          rfl
        show (pure i >>= _) = (pure i >>= _)
        rw [pure_bind, pure_bind, hrun]
        rcases Transfer.run s.ctx k i t with ⟨_ | _, t'⟩
        · rfl
        · exact ih acc t'

theorem spread_moved (p : Propagation) (b : Nat) : (s.moved v).spread p b = s.spread p b := by
  unfold spread
  simp only [walk_moved h hu]
  rfl

theorem settle_moved (rounds : Nat) (p : Propagation) :
    (s.moved v).settle rounds p = s.settle rounds p := by
  induction rounds generalizing p with
  | zero => rfl
  | succ rounds ih =>
    unfold settle
    simp only [spread_moved h hu, ih]

theorem recordAll_moved (rows : List (Block × Option Frame)) :
    (s.moved v).recordAll rows = s.recordAll rows := by
  induction rows with
  | nil => rfl
  | cons row rows ih =>
    obtain ⟨b, _ | entry⟩ := row
    · exact ih
    · unfold recordAll record
      simp only [walk_moved h hu, ih]

end

end Subject

/-- The frames of a body. -/
theorem Analyzer.analyze_eq {a : Analyzer} {f : Func} {is : List Instr} {g : Graph}
    (h : ∀ i ∈ is, i.Refers a.unit n) (hu : a.unit.Extends v) :
    { a with unit := v }.analyze f is g = a.analyze f is g := by
  have hsettle := Subject.settle_moved (s := a.subject f is g) h hu
  have hrecord := Subject.recordAll_moved (s := a.subject f is g) h hu
  have hsubject : { a with unit := v }.subject f is g = (a.subject f is g).moved v := rfl
  unfold analyze Subject.propagate
  simp only [hsubject, hsettle, hrecord]
  rfl

/-! ## Live positions -/

namespace Liveness

variable {l : Liveness}

/-- The same body in another unit. -/
def moved (l : Liveness) (v : CodeUnit) : Liveness := { l with unit := v }

section

variable (h : ∀ i ∈ l.body, i.Refers l.unit n) (hu : l.unit.Extends v)

include h hu

theorem walkBack_moved (caught : BitSet) (row : List Nat) (live : BitSet) :
    (l.moved v).walkBack caught row live = l.walkBack caught row live := by
  induction row generalizing live with
  | nil => rfl
  | cons k rest ih =>
    unfold walkBack
    show (Attempt.ofOption l.body[k]? >>= _) = (Attempt.ofOption l.body[k]? >>= _)
    cases hi : l.body[k]? with
    | none => rfl
    | some i =>
      have htransfer : (l.moved v).transfer i = l.transfer i := by
        funext height after
        unfold transfer
        rw [show (l.moved v).unit = v from rfl,
          Instr.stackEffect_eq (h i (mem_of_getElem? hi)) hu]
        rfl
      simp only [Attempt.ofOption, bind, Except.bind, htransfer, ih]
      rfl

theorem improve_moved (blocks : List Block) (entries : List BitSet) :
    (l.moved v).improve blocks entries = l.improve blocks entries := by
  induction blocks generalizing entries with
  | nil => rfl
  | cons b rest ih =>
    unfold improve liveIn
    simp only [walkBack_moved h hu, ih]
    rfl

theorem settle_moved (rounds : Nat) (entries : List BitSet) :
    (l.moved v).settle rounds entries = l.settle rounds entries := by
  induction rounds generalizing entries with
  | zero => rfl
  | succ rounds ih =>
    unfold settle
    simp only [improve_moved h hu, ih]
    rfl

theorem forSites_moved (sites : List Nat) : (l.moved v).forSites sites = l.forSites sites := by
  unfold forSites entries
  simp only [settle_moved h hu]
  rfl

end

end Liveness

/-! ## Plans -/

/-- The plan of a body. -/
theorem Plan.make_eq {a : Analyzer} {f : Func} {is : List Instr} {sites : List Nat}
    (h : ∀ i ∈ is, i.Refers a.unit n) (hu : a.unit.Extends v) :
    make { a with unit := v } f is sites = make a f is sites := by
  have hpoint (an : Analysis) :
      point v ⟨v, f.maxLocals.toNat, is, an⟩ = point a.unit ⟨a.unit, f.maxLocals.toNat, is, an⟩ := by
    funext id instr frame live
    unfold point
    show (Attempt.ofOption (is[instr]?.bind v.callee?) >>= _) =
      (Attempt.ofOption (is[instr]?.bind a.unit.callee?) >>= _)
    have hcallee : is[instr]?.bind v.callee? = is[instr]?.bind a.unit.callee? := by
      cases hi : is[instr]? with
      | none => rfl
      | some i => exact Instr.callee?_eq (h i (mem_of_getElem? hi)) hu
    rw [hcallee]
    rfl
  have hsites (an : Analysis) : Liveness.forSites ⟨v, f.maxLocals.toNat, is, an⟩ sites =
      Liveness.forSites ⟨a.unit, f.maxLocals.toNat, is, an⟩ sites :=
    Liveness.forSites_moved (l := ⟨a.unit, f.maxLocals.toNat, is, an⟩) h hu sites
  unfold make
  simp only [Analyzer.analyze_eq h hu, hsites, hpoint]

/-! ## Functions -/

namespace CodeUnit

variable {f : Func} {is : List Instr} {sites : List Nat} {classes : Hierarchy}

/-- Every instruction of a checked body refers to entries of the tables. -/
theorem refers_of_bodyOf (h : u.bodyOf f = .ok is) : ∀ i ∈ is, i.Refers u f.maxLocals :=
  fun i hi => ((bodyOf_eq_ok.mp h).2.2.2.1 i hi).2

/-- A checked body stays one. -/
theorem Extends.bodyOf (hu : u.Extends v) (h : u.bodyOf f = .ok is) : v.bodyOf f = .ok is := by
  obtain ⟨hdecode, hne, hparams, hinstrs, hhandlers⟩ := bodyOf_eq_ok.mp h
  refine bodyOf_eq_ok.mpr ⟨hdecode, hne, hparams, fun i hi => ?_, hhandlers⟩
  obtain ⟨htargets, hrefers⟩ := hinstrs i hi
  exact ⟨htargets, hrefers.mono hu (UInt32.le_refl _)⟩

/-- The suspending calls stay the same. -/
theorem Extends.sites_eq (hu : u.Extends v) (h : ∀ i ∈ is, i.Refers u n) (matcher : CallMatcher) :
    v.sites matcher is = u.sites matcher is := by
  refine filter_congr fun pc _ => ?_
  cases hi : is[pc]? with
  | none => rfl
  | some i =>
    show v.suspends matcher i = u.suspends matcher i
    unfold suspends
    rw [Instr.callee?_eq (h i (mem_of_getElem? hi)) hu]

theorem isSome_findFunction {name : Text} :
    (u.findFunction name).isSome ↔ name ∈ u.functions.map Func.name := by
  unfold findFunction
  rw [findIdx?_isSome, any_eq_true, mem_map]
  simp only [decide_eq_true_eq]

/-- When the suspending calls of a function can be used. -/
theorem checkUsage_eq_ok : u.checkUsage classes f is sites = .ok () ↔
    classes.isFuture f.result ∧
      (∀ s ∈ sites.filterMap fun pc => (is[pc]?).bind u.callee?, checkCall classes s = .ok ()) ∧
      f.name ++ continuationSuffix ∉ u.functions.map Func.name := by
  unfold checkUsage
  constructor
  · intro h
    obtain ⟨hresult, h⟩ := guarded_eq_ok.mp h
    obtain ⟨_, hcalls, h⟩ := bind_eq_ok.mp h
    refine ⟨by simpa using hresult, forM_eq_ok.mp hcalls, fun hmem => ?_⟩
    rw [if_pos (isSome_findFunction.mpr hmem)] at h
    cases h
  · rintro ⟨hresult, hcalls, hname⟩
    refine guarded_eq_ok.mpr ⟨by simp [hresult], bind_eq_ok.mpr ⟨(), forM_eq_ok.mpr hcalls, ?_⟩⟩
    rw [if_neg fun h => hname (isSome_findFunction.mp h)]
    rfl

/-- In a grown unit the suspending calls of a function can be used if they could be before and the name
of the continuation is still free. -/
theorem Extends.checkUsage_eq_ok (hu : u.Extends v) (h : ∀ i ∈ is, i.Refers u n) :
    v.checkUsage classes f is sites = .ok () ↔
      classes.isFuture f.result ∧
        (∀ s ∈ sites.filterMap fun pc => (is[pc]?).bind u.callee?, checkCall classes s = .ok ()) ∧
        f.name ++ continuationSuffix ∉ v.functions.map Func.name := by
  have hcalls : (fun pc : Nat => (is[pc]?).bind v.callee?) = fun pc => (is[pc]?).bind u.callee? := by
    funext pc
    cases hi : is[pc]? with
    | none => rfl
    | some i => exact Instr.callee?_eq (h i (mem_of_getElem? hi)) hu
  rw [CodeUnit.checkUsage_eq_ok, hcalls]

end CodeUnit

end Resumable
