import Resumable.Proofs.CodeUnit.Acceptance
import Resumable.Proofs.CodeUnit.Completion
import Resumable.Proofs.CodeUnit.Reencoding
import Resumable.Proofs.Suspension.Plan
import Resumable.Proofs.Transform.Choice

/-!
# What the transformation changes

The functions of a unit are done one after the other, and all of them see the tables as the functions
before have left them. `Reached` says what holds after the first functions: some became state machines,
in the order of their places, and the unit is the one at the start with these in the places of their
functions and with their layouts behind its own. `Effect` says the same of the unit that is read back
from the bytes at the end.
-/

namespace Resumable.Transform

open List

/-! ## State machines in their places -/

/-- A function that became a state machine. -/
structure Rewriting where
  /-- The place of the function in the unit. -/
  index : Nat
  before : Func
  body : List Instr
  plan : Plan
  after : Func
  continuation : Func

namespace Rewriting

/-- The layouts of its points. -/
def layouts (r : Rewriting) : List Layout := r.plan.points.map (Point.layout r.before)

/-- The function was to become a state machine, and it became one. -/
structure Sound (o : TransformOptions) (u : CodeUnit) (r : Rewriting) : Prop where
  place : u.functions[r.index]? = some r.before
  chosen : Chosen o u (u.hierarchy o.loader) r.before r.body r.plan
  signed : Signed r.before r.after r.continuation

end Rewriting

/-- Functions, with state machines in some of their places. -/
def install (done : List Rewriting) (fs : List Func) : List Func :=
  done.foldl (fun fs r => fs.set r.index r.after) fs

section

variable {done : List Rewriting} {fs : List Func}

theorem install_cons {r : Rewriting} :
    install (r :: done) fs = install done (fs.set r.index r.after) := rfl

theorem install_append {r : Rewriting} :
    install (done ++ [r]) fs = (install done fs).set r.index r.after :=
  foldl_append ..

theorem length_install : (install done fs).length = fs.length := by
  induction done generalizing fs with
  | nil => rfl
  | cons r done ih => exact ih.trans length_set

/-- Other places keep their functions. -/
theorem getElem?_install_of_notMem {i : Nat} (h : i ∉ done.map Rewriting.index) :
    (install done fs)[i]? = fs[i]? := by
  induction done generalizing fs with
  | nil => rfl
  | cons r done ih =>
    rw [map_cons, mem_cons, not_or] at h
    exact (ih h.2).trans (getElem?_set_ne (Ne.symm h.1))

/-- State machines stand in their places, if no two have the same. -/
theorem getElem?_install (horder : (done.map Rewriting.index).Pairwise (· < ·)) {r : Rewriting}
    (hr : r ∈ done) (hlt : r.index < fs.length) : (install done fs)[r.index]? = some r.after := by
  induction done generalizing fs with
  | nil => cases hr
  | cons s done ih =>
    rw [map_cons, pairwise_cons] at horder
    rcases mem_cons.mp hr with rfl | hr
    · rw [install_cons, getElem?_install_of_notMem fun hmem => Nat.lt_irrefl _ (horder.1 _ hmem)]
      exact getElem?_set_self hlt
    · exact ih horder.2 hr (by rwa [length_set])

/-- State machines have the names of their functions. -/
theorem map_name_install (h : ∀ r ∈ done, (fs[r.index]?).map Func.name = some r.after.name) :
    (install done fs).map Func.name = fs.map Func.name := by
  induction done generalizing fs with
  | nil => rfl
  | cons r done ih =>
    rw [forall_mem_cons] at h
    have hset : (fs.set r.index r.after).map Func.name = fs.map Func.name := by
      rw [map_set]
      refine ext_getElem? fun i => ?_
      by_cases hi : i = r.index
      · subst hi
        rw [getElem?_set_self', getElem?_map, h.1]
        rfl
      · rw [getElem?_set_ne (Ne.symm hi)]
    refine (ih fun s hs => ?_).trans hset
    rw [← getElem?_map, hset, getElem?_map]
    exact h.2 s hs

end

/-! ## One function after the other -/

/-- A unit of which the first functions are done. -/
structure Reached (o : TransformOptions) (u : CodeUnit) (n : Nat) (p : Progress)
    (done : List Rewriting) : Prop where
  gains : u.Gains (done.flatMap Rewriting.layouts) p.unit
  functions : p.unit.functions = install done u.functions
  changed : p.changed = done.map Rewriting.index
  continuations : p.continuations = done.map Rewriting.continuation
  sound : ∀ r ∈ done, r.Sound o u
  order : (done.map Rewriting.index).Pairwise (· < ·)
  below : ∀ i ∈ done.map Rewriting.index, i < n
  left : ∀ i f, i < n → u.functions[i]? = some f → i ∉ done.map Rewriting.index →
    Left o u (u.hierarchy o.loader) f

variable {o : TransformOptions} {u : CodeUnit} {n : Nat} {p p' : Progress} {done : List Rewriting}

theorem reached_start (o : TransformOptions) (u : CodeUnit) : Reached o u 0 { unit := u } [] where
  gains := .refl u
  functions := rfl
  changed := rfl
  continuations := rfl
  sound := by simp
  order := .nil
  below := by simp
  left := fun i f hi => absurd hi (Nat.not_lt_zero i)

/-- What the work on one more function comes to. -/
theorem advance_returns {classes : Hierarchy} (h : (advance o classes p n).Returns p') :
    ∃ f, p.unit.functions[n]? = some f ∧
      (Left o p.unit classes f ∧ p' = p ∨
        ∃ is plan f' c v, Chosen o p.unit classes f is plan ∧ Signed f f' c ∧
          p.unit.Gains (plan.points.map (Point.layout f)) v ∧ v.functions = p.unit.functions ∧
          p' = ⟨{ v with functions := v.functions.set n f' }, p.changed ++ [n],
            p.continuations ++ [c]⟩) := by
  unfold advance at h
  obtain ⟨f, hf, h⟩ := h.bind
  obtain ⟨r, hr, h⟩ := h.bind
  refine ⟨f, Attempt.ofOption_eq_ok.mp hf.orElse, ?_⟩
  obtain ⟨hleft, rfl⟩ | ⟨is, plan, f', c, hchosen, rfl, hfunctions⟩ := function_returns hr
  · exact .inl ⟨hleft, (Journaled.Returns.pure h).symm⟩
  · obtain ⟨hgains, hsame⟩ := Emission.prepare_adds f is plan p.unit
    obtain ⟨hfunction, hplan⟩ := Emission.prepare_fields f is plan p.unit
    have hname : plan.continuation = f.name ++ continuationSuffix := by
      obtain ⟨_, _, _, _, _, -, -, -, -, -, rfl⟩ := Plan.make_eq_ok.mp hchosen.planned
      rfl
    generalize Emission.prepare f is plan p.unit = prepared at *
    have hsigned := Emission.functions_signed hfunctions (by rw [hplan, hfunction, hname])
    rw [hfunction] at hsigned
    exact .inr ⟨is, plan, f', c, prepared.2, hchosen, hsigned, hgains, hsame,
      (Journaled.Returns.pure h).symm⟩

section

variable (h : Reached o u n p done)

include h

/-- State machines do not change the names of the functions. -/
theorem Reached.names : p.unit.functions.map Func.name = u.functions.map Func.name := by
  rw [h.functions]
  refine map_name_install fun r hr => ?_
  rw [(h.sound r hr).place, (h.sound r hr).signed.name]
  rfl

/-- The next function is still the one of the unit at the start. -/
theorem Reached.next : p.unit.functions[n]? = u.functions[n]? := by
  rw [h.functions]
  exact getElem?_install_of_notMem fun hmem => Nat.lt_irrefl n (h.below n hmem)

/-- The next function is left as it is. -/
theorem Reached.leave {f : Func} (hf : u.functions[n]? = some f)
    (hleft : Left o u (u.hierarchy o.loader) f) : Reached o u (n + 1) p done := by
  refine { h with below := fun i hi => Nat.lt_succ_of_lt (h.below i hi), left := ?_ }
  intro i g hi hg hmem
  rcases Nat.lt_succ_iff_lt_or_eq.mp hi with hi | rfl
  · exact h.left i g hi hg hmem
  · cases hf.symm.trans hg
    exact hleft

/-- The next function becomes a state machine. -/
theorem Reached.rewrite {r : Rewriting} {v : CodeUnit} (hr : r.Sound o u) (hindex : r.index = n)
    (hgains : p.unit.Gains r.layouts v) (hsame : v.functions = p.unit.functions) :
    Reached o u (n + 1) ⟨{ v with functions := v.functions.set r.index r.after },
      p.changed ++ [r.index], p.continuations ++ [r.continuation]⟩ (done ++ [r]) := by
  constructor
  case gains =>
    rw [flatMap_append, flatMap_singleton]
    exact (h.gains.trans hgains).functions
  case functions => rw [install_append, ← h.functions, ← hsame]
  case changed => simp [h.changed]
  case continuations => simp [h.continuations]
  case sound =>
    rw [forall_mem_append, forall_mem_singleton]
    exact ⟨h.sound, hr⟩
  case order =>
    rw [map_append, pairwise_append]
    refine ⟨h.order, pairwise_singleton _ _, fun i hi j hj => ?_⟩
    rw [mem_singleton.mp hj, hindex]
    exact h.below i hi
  case below =>
    rw [map_append, forall_mem_append]
    refine ⟨fun i hi => Nat.lt_succ_of_lt (h.below i hi), ?_⟩
    simp [hindex]
  case left =>
    intro i g hi hg hmem
    rw [map_append, mem_append, not_or] at hmem
    have hne : i ≠ n := fun heq => hmem.2 (by simp [heq, hindex])
    exact h.left i g (by omega) hg hmem.1

/-- **One more function is done.** Whether it becomes a state machine does not depend on what became of
the functions before it. -/
theorem Reached.advance (hbodies : u.checkBodies = .ok ())
    (hp : (advance o (u.hierarchy o.loader) p n).Returns p') :
    ∃ done', Reached o u (n + 1) p' done' := by
  obtain ⟨f, hf, hp⟩ := advance_returns hp
  rw [h.next] at hf
  obtain ⟨_, hbody⟩ := CodeUnit.checkBodies_eq_ok.mp hbodies f (mem_of_getElem? hf)
  obtain ⟨hleft, rfl⟩ | ⟨is, plan, f', c, v, hchosen, hsigned, hgains, hsame, rfl⟩ := hp
  · exact ⟨done, h.leave hf (hleft.before h.gains.extends h.names hbody)⟩
  · have hchosen := hchosen.before h.gains.extends h.names hbody
    have hsound : Rewriting.Sound o u ⟨n, f, is, plan, f', c⟩ := ⟨hf, hchosen, hsigned⟩
    exact ⟨_, h.rewrite hsound rfl hgains hsame⟩

end

/-- All functions are done. -/
theorem exists_reached (hbodies : u.checkBodies = .ok ())
    (h : ((range n).foldlM (advance o (u.hierarchy o.loader)) { unit := u }).Returns p) :
    ∃ done, Reached o u n p done :=
  h.foldlM_range (fun k p => ∃ done, Reached o u k p done) ⟨[], reached_start o u⟩
    fun _ _ _ _ ⟨_, hreached⟩ hstep => hreached.advance hbodies hstep

/-! ## Whole units -/

/-- Bytes that passed verification can be read. -/
theorem parse_of_verifyOutput {out : Bytes} {indices : List Nat}
    (h : (verifyOutput o out indices).Returns ()) : ∃ v, CodeUnit.parse out = .ok v := by
  unfold verifyOutput at h
  split at h
  next => exact absurd h Journaled.not_returns_throw
  next v hv => exact ⟨v, mapError_eq_ok.mp hv⟩

/-- The unit with all continuations at the end. -/
def Progress.finished (p : Progress) : CodeUnit :=
  { p.unit with functions := p.unit.functions ++ p.continuations }

/-- The work on a unit that gives bytes. -/
theorem unit_returns {out : Bytes} (h : (unit o u).Returns out) :
    ∃ p, ((range u.functions.length).foldlM (advance o (u.hierarchy o.loader))
        { unit := u }).Returns p ∧
      p.changed ≠ [] ∧ out = p.finished.encode ∧
      (o.verify = true → ∃ v, CodeUnit.parse out = .ok v) := by
  unfold unit at h
  obtain ⟨p, hp, h⟩ := h.bind
  refine ⟨p, hp, ?_⟩
  dsimp only at h
  split at h
  next =>
    obtain ⟨_, h, _⟩ := h.bind
    exact absurd h Journaled.not_returns_throw
  next hchanged =>
  refine ⟨fun hnil => hchanged (List.isEmpty_iff.mpr hnil), ?_⟩
  split at h
  next =>
    obtain ⟨_, hverify, h⟩ := h.bind
    obtain ⟨_, _, h⟩ := h.bind
    obtain rfl := Journaled.Returns.pure h
    exact ⟨rfl, fun _ => parse_of_verifyOutput hverify⟩
  next hverify =>
    obtain ⟨_, _, h⟩ := h.bind
    exact ⟨(Journaled.Returns.pure h).symm, fun h => absurd h hverify⟩

theorem bytes_returns {data out : Bytes} (hparse : CodeUnit.parse data = .ok u)
    (h : (bytes o data).Returns out) : (unit o u).Returns out := by
  unfold bytes CodeUnit.decode at h
  rw [hparse] at h
  exact h

/-- What the transformation makes of a unit. -/
structure Effect (o : TransformOptions) (u : CodeUnit) (done : List Rewriting) (v : CodeUnit) :
    Prop where
  /-- Classes and custom sections stay. Strings and symbols get more entries at their ends, and layouts
  those of the points, one function after the other. -/
  gains : u.Gains (done.flatMap Rewriting.layouts) v
  sound : ∀ r ∈ done, r.Sound o u
  order : (done.map Rewriting.index).Pairwise (· < ·)
  rewritten : ∀ r ∈ done, v.functions[r.index]? = some r.after
  kept : ∀ i f, u.functions[i]? = some f → i ∉ done.map Rewriting.index →
    v.functions[i]? = some f ∧ Left o u (u.hierarchy o.loader) f
  /-- Behind the functions of the unit there are the continuations and nothing else. -/
  added : v.functions.drop u.functions.length = done.map Rewriting.continuation

/-- When all functions are done, only the pool is still completed. -/
theorem Reached.effect (h : Reached o u u.functions.length p done) (hnodup : u.strings.Nodup) :
    Effect o u done p.finished.completed := by
  have hgains : u.Gains (done.flatMap Rewriting.layouts) p.finished := h.gains.functions
  have hlen : p.unit.functions.length = u.functions.length := by rw [h.functions, length_install]
  have hfirst {i : Nat} (hi : i < u.functions.length) :
      p.finished.completed.functions[i]? = (install done u.functions)[i]? := by
    rw [← h.functions]
    exact getElem?_append_left (hlen ▸ hi)
  constructor
  case gains =>
    exact { hgains with
      strings := hgains.strings.trans (prefix_append _ _)
      nodup := fun _ => CodeUnit.completed_nodup (hgains.nodup hnodup) }
  case sound => exact h.sound
  case order => exact h.order
  case rewritten =>
    intro r hr
    have hlt := (List.getElem?_eq_some_iff.mp (h.sound r hr).place).1
    rw [hfirst hlt, getElem?_install h.order hr hlt]
  case kept =>
    intro i f hf hmem
    have hlt := lt_of_getElem? hf
    rw [hfirst hlt, getElem?_install_of_notMem hmem]
    exact ⟨hf, h.left i f hlt hf hmem⟩
  case added =>
    rw [← h.continuations, ← hlen]
    exact drop_left

/-- **Bytes that come out of the transformation** stand for the unit that went in, with state machines in
some of its places. -/
theorem exists_effect {data out : Bytes} (hparse : CodeUnit.parse data = .ok u)
    (hnodup : u.strings.Nodup) (hverify : o.verify = true) (hout : (bytes o data).Returns out)
    (hsize : out.length < 2 ^ 32) :
    ∃ v done, CodeUnit.parse out = .ok v ∧ done ≠ [] ∧ Effect o u done v ∧
      v.records.length < 2 ^ 32 := by
  obtain ⟨p, hp, hchanged, rfl, hread⟩ := unit_returns (bytes_returns hparse hout)
  obtain ⟨v, hv⟩ := hread hverify
  obtain ⟨done, hreached⟩ := exists_reached (CodeUnit.settled_of_parse hparse).2 hp
  have hgains : u.Gains (done.flatMap Rewriting.layouts) p.finished := hreached.gains.functions
  have heq : v = p.finished.completed := by
    rw [CodeUnit.eq_of_parse_encode hsize hv, CodeUnit.pool_eq_completed (hgains.nodup hnodup)]
    rfl
  refine ⟨v, done, hv, fun hnil => hchanged ?_, heq ▸ hreached.effect hnodup, ?_⟩
  · rw [hreached.changed, hnil]
    rfl
  · rw [heq]
    exact CodeUnit.length_records_lt hsize (u := p.finished)

/-! ## Points -/

/-- The points of a state machine are the suspending calls that its function can reach, in the order of
its instructions, and their layouts are numbered from one. -/
structure Rewriting.Numbered (o : TransformOptions) (u : CodeUnit) (r : Rewriting) : Prop where
  instrs : r.plan.points.map Point.instr =
    (u.sites o.matcher r.body).filter fun i => (r.plan.analysis.frameAt i).isSome
  ascending : (r.plan.points.map Point.instr).Pairwise (· < ·)
  numbers : r.layouts.map (fun l => l.point.toNat) = List.range' 1 r.plan.points.length

theorem Rewriting.Sound.numbered {r : Rewriting} (h : r.Sound o u)
    (hfew : r.plan.points.length < 2 ^ 32) : r.Numbered o u := by
  obtain ⟨hids, hinstrs⟩ := Plan.points_of_make h.chosen.planned
  refine ⟨hinstrs, ?_, ?_⟩
  · rw [hinstrs]
    exact (pairwise_lt_range.filter _).filter _
  · have hsmall : ∀ n ∈ range' 1 r.plan.points.length, (UInt32.ofNat n).toNat = n := by
      intro n hn
      have := mem_range'_1.mp hn
      exact UInt32.toNat_ofNat_of_lt' (show n < 2 ^ 32 by omega)
    have hmap : r.layouts.map (fun l => l.point.toNat) =
        (r.plan.points.map Point.id).map fun n => (UInt32.ofNat n).toNat := by
      rw [layouts, map_map, map_map]
      rfl
    rw [hmap, hids, map_congr_left hsmall, map_id']

/-- **The transformation changes only what it must.** The bytes that it gives are read back as the unit
that went in, with state machines for some of its functions. Every other function is left where and as
it was, for a reason. Sizes are written with 32 bits, and a loader may name classes that are longer; so
the bytes have to be as many as 32 bits count. -/
theorem bytes_effect {data out : Bytes} (hparse : CodeUnit.parse data = .ok u)
    (hnodup : u.strings.Nodup) (hverify : o.verify = true)
    (hout : (bytes o data).outcome.1 = .ok out) (hsize : out.length < 2 ^ 32) :
    ∃ v done, CodeUnit.parse out = .ok v ∧ done ≠ [] ∧ Effect o u done v ∧
      ∀ r ∈ done, r.Numbered o u := by
  obtain ⟨v, done, hv, hne, heffect, hfew⟩ :=
    exists_effect hparse hnodup hverify (Journaled.returns_of_outcome hout) hsize
  refine ⟨v, done, hv, hne, heffect, fun r hr => (heffect.sound r hr).numbered ?_⟩
  -- every point has a layout in the unit
  have hrow : r.layouts.length ≤ (done.flatMap Rewriting.layouts).length := by
    rw [List.flatMap_def]
    exact (List.sublist_flatten_of_mem (List.mem_map_of_mem hr)).length_le
  rw [heffect.gains.records, List.length_append] at hfew
  rw [Rewriting.layouts, List.length_map] at hrow
  omega

/-- Awaits its argument twice. -/
def twiceFunc : Func where
  name := "twice"
  params := [.ref "Future"]
  result := .ref "Future"
  code := [0x10, 0x00, 0x40, 0x00, 0x18, 0x10, 0x00, 0x40, 0x00, 0x18, 0x10, 0x00, 0x51]
  maxStack := 1
  maxLocals := 1

/-- Awaits its argument, but returns no future. -/
def strayFunc : Func where
  name := "stray"
  params := [.ref "Future"]
  code := [0x10, 0x00, 0x40, 0x00, 0x18, 0x50]
  maxStack := 1
  maxLocals := 1

/-- A unit of which one function becomes a state machine and one does not. -/
def mixedUnit : CodeUnit where
  strings := ["stray", "Future", "async/Await", "await", "Object", "twice"]
  symbols := [
    { owner := "async/Await", name := "await", params := [.ref "Future"], result := .ref "Object" }]
  functions := [strayFunc, twiceFunc]

theorem parse_mixed : CodeUnit.parse mixedUnit.encode = .ok mixedUnit :=
  toOption_eq_some.mp (by decide +kernel)

theorem exists_bytes_mixed :
    ∃ out, (bytes {} mixedUnit.encode).outcome.1 = .ok out ∧ out.length < 2 ^ 32 := by
  have h : (bytes {} mixedUnit.encode).outcome.1.toOption.map length = some 553 := by
    decide +kernel
  obtain ⟨out, hout, hlen⟩ := Option.map_eq_some_iff.mp h
  exact ⟨out, toOption_eq_some.mp hout, by omega⟩

theorem bytes_effect_mixed :
    CodeUnit.parse mixedUnit.encode = .ok mixedUnit ∧ mixedUnit.strings.Nodup ∧
      ∃ out, (bytes {} mixedUnit.encode).outcome.1 = .ok out ∧ out.length < 2 ^ 32 ∧
        ∃ v done, CodeUnit.parse out = .ok v ∧ done ≠ [] ∧ Effect {} mixedUnit done v ∧
          ∀ r ∈ done, r.Numbered {} mixedUnit := by
  have hnodup : mixedUnit.strings.Nodup := by decide
  obtain ⟨out, hout, hsize⟩ := exists_bytes_mixed
  exact ⟨parse_mixed, hnodup, out, hout, hsize, bytes_effect parse_mixed hnodup rfl hout hsize⟩

end Resumable.Transform
