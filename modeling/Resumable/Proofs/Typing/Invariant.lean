import Resumable.Proofs.Typing.Body

/-!
# What all frames have in common

A property that instructions, handlers and joins keep holds of every frame that an analysis finds,
if it holds of the frame that the function starts with. Unlike what follows from a typing, this may
be a property that greater frames lack. The use here is that stack slots have usable types as long
as calls and record fields give nothing else. In the same way a property of blocks that edges keep
holds of all blocks that get a frame.
-/

namespace Resumable

open List

namespace Subject

open Propagation

/-- A property of frames that is kept on all ways from one frame to another. -/
structure Keeps (s : Subject) (P : Frame → Prop) : Prop where
  step : ∀ {i : Nat} {instr : Instr} {F F' : Frame}, s.body[i]? = some instr →
    instr.Yields s.ctx F F' → P F → P F'
  caught : ∀ {F : Frame} (cls : Text), P F → P (F.caught cls)
  join : ∀ {F G K : Frame}, s.ctx.classes.joinFrames F G = .ok K → P F → P G → P K

variable {s : Subject} {P : Frame → Prop} {p p' q : Propagation} {f g : Frame} {l : List Nat}
  {seen : List (Nat × Frame)}

/-- All entry frames have a property. -/
def Throughout (P : Frame → Prop) (p : Propagation) : Prop :=
  ∀ ⦃b : Nat⦄ ⦃F : Frame⦄, p.entryOf b = some F → P F

theorem Keeps.walks (hP : s.Keeps P) (h : s.Walks l f seen g) (hf : P f) :
    P g ∧ ∀ x ∈ seen, P x.2 := by
  induction h with
  | nil => exact ⟨hf, fun _ hx => by cases hx⟩
  | cons hi hy _ ih =>
    obtain ⟨hg, hseen⟩ := ih (hP.step hi hy hf)
    exact ⟨hg, forall_mem_cons.mpr ⟨hf, hseen⟩⟩

theorem Keeps.flow (hP : s.Keeps P) {origin target : Nat} (hp : Throughout P p) (hf : P f)
    (h : s.flow origin p target f = .ok p') : Throughout P p' := by
  have henter {k : Frame} (hlt : target < p.entries.length) (hk : P k) :
      Throughout P (p.enter target k) := by
    intro b F hF
    rw [entryOf_enter hlt] at hF
    split at hF
    next =>
      cases hF
      exact hk
    next => exact hp hF
  obtain ⟨hlt, ⟨_, rfl⟩ | ⟨old, new, hold, hj, rfl⟩⟩ := flow_cases h
  · exact henter hlt hf
  · split
    next => exact hp
    next => exact henter hlt (hP.join hj (hp hold) hf)

theorem Keeps.spread (hP : s.Keeps P) {b : Nat} (hp : Throughout P p)
    (h : s.spread p b = .ok p') : Throughout P p' := by
  obtain ⟨B, f, seen, g, -, hf, hwalks, hmotive⟩ := spread_induction h
  obtain ⟨hlast, hseen⟩ := hP.walks hwalks (hp hf)
  refine hmotive (Throughout P) hp fun hk hq hflow => hP.flow hq ?_ hflow
  rcases hk with ⟨x, hx, h, -, -, -, rfl⟩ | ⟨-, rfl⟩
  · exact hP.caught h.cls (hseen x hx)
  · exact hlast

theorem Keeps.rounds (hP : s.Keeps P) {n : Nat} (hr : s.Rounds n p q) (hp : Throughout P p) :
    Throughout P q := by
  induction hr with
  | refl => exact hp
  | @step n b p p' q _ hs _ ih => exact ih (hP.spread (p := p.take b) hp hs)

end Subject

namespace Analyzer

variable {a : Analyzer} {f : Func} {is : List Instr} {g : Graph} {an : Analysis}
  {handlers : List Handler} {splits : List Int} {P : Frame → Prop}

/-- **All frames of an analysis have a property that is kept,** if the first one has. -/
theorem frameAt_of_keeps (hP : (a.subject f is g).Keeps P) (hd : g.Divides is handlers splits)
    (h : a.analyze f is g = .ok an) (hentry : P (entryFrame f)) {i : Nat} {F : Frame}
    (hF : an.frameAt i = some F) : P F := by
  obtain ⟨b, B, k, seen, k', -, hk, hwalks, hmem⟩ := (frameAt_iff hd h).mp hF
  obtain ⟨_, p, _, _, hp, _, rfl⟩ := analyze_eq_ok.mp h
  obtain ⟨n, hr, _⟩ := Subject.rounds_of_settle hp
  have hinitial : Subject.Throughout P ((a.subject f is g).initial (entryFrame f)) := by
    intro b F hF
    rw [Subject.entryOf_initial (blocks_ne_nil hd)] at hF
    split at hF
    next =>
      cases hF
      exact hentry
    next => cases hF
  exact (hP.walks hwalks (hP.rounds hr hinitial hk)).2 _ hmem

end Analyzer

/-! ## Blocks with frames -/

namespace Subject

open Propagation

variable {s : Subject} {p p' q : Propagation} {handlers : List Handler} {splits : List Int}
  {motive : Nat → Prop}

/-- A walk over a block meets handlers of the block only. -/
theorem Walks.mem_excSuccs {b : Nat} {B : Block} {F F' : Frame} {seen : List (Nat × Frame)}
    (hd : s.graph.Divides s.body handlers splits) (hB : s.graph.blocks[b]? = some B)
    (hw : s.Walks (members B) F seen F') {x : Nat × Frame} (hx : x ∈ seen) {G : Guard}
    (hG : G ∈ s.graph.guards) (hcov : G.covers x.1) : G.entry ∈ B.excSuccs := by
  have hmem : x.1 ∈ members B := by
    rw [← hw.map_fst]
    exact mem_map_of_mem hx
  unfold members at hmem
  rw [mem_range'_1] at hmem
  exact hd.mem_excSuccs hB hmem.1 (by omega) hG hcov

/-- Spreading a block gives frames to its successors and its handlers only. -/
theorem spread_entries (hd : s.graph.Divides s.body handlers splits)
    (hedge : ∀ {b c : Nat} {B : Block}, motive b → s.graph.blocks[b]? = some B →
      c ∈ B.succs ∨ c ∈ B.excSuccs → motive c)
    (hp : ∀ b F, p.entryOf b = some F → motive b) {b : Nat} (h : s.spread p b = .ok p') :
    ∀ b F, p'.entryOf b = some F → motive b := by
  obtain ⟨B, f, seen, g, hB, hf, hwalks, hmotive⟩ := spread_induction h
  refine hmotive (fun q => ∀ b F, q.entryOf b = some F → motive b) hp ?_
  intro origin c k q q' hcarried hq hflow
  have hc : motive c := by
    refine hedge (hp b f hf) hB ?_
    rcases hcarried with ⟨x, hx, G, hG, hcov, rfl, -⟩ | ⟨hc, -⟩
    · exact .inr (hwalks.mem_excSuccs hd hB hx hG hcov)
    · exact .inl hc
  have henter : ∀ {K}, c < q.entries.length → ∀ b F, (q.enter c K).entryOf b = some F → motive b := by
    intro K hlt b F hF
    rw [entryOf_enter hlt] at hF
    split at hF
    next heq => exact heq ▸ hc
    next => exact hq b F hF
  obtain ⟨hlt, ⟨_, rfl⟩ | ⟨_, _, _, _, rfl⟩⟩ := flow_cases hflow
  · exact henter hlt
  · split
    next => exact hq
    next => exact henter hlt

end Subject

/-- **Blocks with frames** have every property that the first block has and edges keep. -/
theorem Analyzer.entryOf_induction {a : Analyzer} {f : Func} {is : List Instr} {g : Graph}
    {an : Analysis} {handlers : List Handler} {splits : List Int} (motive : Nat → Prop)
    (hd : g.Divides is handlers splits) (h : a.analyze f is g = .ok an) (hfirst : motive 0)
    (hedge : ∀ {b c : Nat} {B : Block}, motive b → g.blocks[b]? = some B →
      c ∈ B.succs ∨ c ∈ B.excSuccs → motive c) {b : Nat} {F : Frame}
    (hF : an.entryOf b = some F) : motive b := by
  obtain ⟨_, p, _, _, hp, _, rfl⟩ := analyze_eq_ok.mp h
  obtain ⟨n, hr, _⟩ := Subject.rounds_of_settle hp
  have hrounds : ∀ {n p q}, (a.subject f is g).Rounds n p q →
      (∀ b F, p.entryOf b = some F → motive b) → ∀ b F, q.entryOf b = some F → motive b := by
    intro n p q hr
    induction hr with
    | refl => exact id
    | @step n b p p' q _ hs _ ih =>
      exact fun hp => ih (Subject.spread_entries (s := a.subject f is g) hd hedge (p := p.take b) hp hs)
  have hinitial : ∀ b F, ((a.subject f is g).initial (entryFrame f)).entryOf b = some F →
      motive b := by
    intro b F hF
    rw [Subject.entryOf_initial (blocks_ne_nil hd)] at hF
    split at hF
    next heq => exact heq ▸ hfirst
    next => cases hF
  exact hrounds hr hinitial b F hF

/-- Edges lead from blocks with frames to blocks with frames. -/
theorem Analyzer.exists_entryOf {a : Analyzer} {f : Func} {is : List Instr} {g : Graph}
    {an : Analysis} {handlers : List Handler} {splits : List Int} (hd : g.Divides is handlers splits)
    (h : a.analyze f is g = .ok an) {b c : Nat} {B : Block} {F : Frame}
    (hF : an.entryOf b = some F) (hB : g.blocks[b]? = some B)
    (hc : c ∈ B.succs ∨ c ∈ B.excSuccs) : ∃ F', an.entryOf c = some F' := by
  obtain ⟨B', hB', seen, K, hwalks, hcaught, hsuccs⟩ :=
    (analyze_sound a.classes.bounds_true hd h).block hF
  rw [show (a.subject f is g).graph.blocks[b]? = some B from hB] at hB'
  cases hB'
  rcases hc with hc | hc
  · obtain ⟨F', hF', -⟩ := hsuccs c hc
    exact ⟨F', hF'⟩
  · rw [hd.excSuccs hB, mem_eraseDups, mem_map] at hc
    obtain ⟨G, hG, rfl⟩ := hc
    obtain ⟨hG, hcov⟩ := mem_filter.mp hG
    have hlt := (hd.within hB).2.1
    obtain ⟨F', hF', -⟩ := hcaught _ (hwalks.head (by omega)) G hG hcov
    exact ⟨F', hF'⟩

/-! ## Usable stack slots -/

/-- No slot of the stack is unusable. -/
def Frame.UsableStack (F : Frame) : Prop := ∀ t ∈ F.stack, t.Usable

/-- Calls and record fields give values of usable types, or calls none at all. -/
structure CodeUnit.UsableTypes (u : CodeUnit) : Prop where
  results : ∀ s ∈ u.symbols, s.result ≠ .top
  fields : ∀ l ∈ u.records, ∀ t ∈ l.fields, t.Usable

theorem Ty.Under.usable {I : Text → Text → Prop} {a b : Ty} (h : a.Under I b) (ha : a.Usable) :
    b.Usable := by
  cases h with
  | refl => exact ha
  | null | ref => exact ⟨by simp, by simp⟩

theorem mem_of_item? {α : Type} {table : List α} {n : UInt32} {x : α}
    (h : item? table n = some x) : x ∈ table := mem_of_getElem? h

theorem Instr.Yields.usableStack {ctx : TypingContext} {i : Instr} {F F' : Frame}
    (hu : ctx.unit.UsableTypes) (hy : i.Yields ctx F F') (hF : F.UsableStack) : F'.UsableStack := by
  unfold Frame.UsableStack at hF ⊢
  cases hy with
  | load hl ht => exact forall_mem_cons.mpr ⟨ht, hF⟩
  | @invoke n c ts ls st hs _ =>
    have hrest : ∀ t ∈ st, t.Usable := fun t ht => hF t (mem_append_right ts ht)
    show ∀ t ∈ c.result.pushed st, t.Usable
    unfold Ty.pushed
    split
    next => exact hrest
    next hvoid => exact forall_mem_cons.mpr ⟨⟨hu.results c (mem_of_item? hs), hvoid⟩, hrest⟩
  | @newrec n l ts ls st _ _ =>
    exact forall_mem_cons.mpr ⟨⟨by simp, by simp⟩, fun t ht =>
      hF t (mem_append_right ts ht)⟩
  | recget _ hl ht =>
    exact forall_mem_cons.mpr ⟨hu.fields _ (mem_of_item? hl) _ (mem_of_item? ht),
      (forall_mem_cons.mp hF).2⟩
  | _ => simp_all [Ty.Usable]

theorem Hierarchy.usableStack_of_join {h : Hierarchy} {F G K : Frame}
    (hj : h.joinFrames F G = .ok K) (hF : F.UsableStack) : K.UsableStack := by
  obtain ⟨hlen, hj, -⟩ := Hierarchy.joinFrames_eq_ok.mp hj
  have hup := (Hierarchy.joinStack_upper h.bounds_true (by simpa using hlen) hj).1
  intro t ht
  obtain ⟨a, ha, hat⟩ := forall₂_exists_mem hup.flip (mem_reverse.mpr ht)
  exact hat.usable (hF a (mem_reverse.mp ha))

namespace Analyzer

variable {a : Analyzer} {f : Func} {is : List Instr} {g : Graph} {an : Analysis}
  {handlers : List Handler} {splits : List Int}

/-- **Stack slots have usable types** if the values that get there from outside do. -/
theorem usableStack_of_analyze (hu : a.unit.UsableTypes) (hd : g.Divides is handlers splits)
    (h : a.analyze f is g = .ok an) {i : Nat} {F : Frame} (hF : an.frameAt i = some F) :
    F.UsableStack := by
  refine frameAt_of_keeps ⟨?_, ?_, ?_⟩ hd h (fun t ht => by cases ht) hF
  · intro _ _ _ _ _ hy hF
    exact hy.usableStack hu hF
  · intro _ cls _ t ht
    obtain rfl := mem_singleton.mp ht
    exact ⟨by simp, by simp⟩
  · intro _ _ _ hj hF _
    exact Hierarchy.usableStack_of_join hj hF

end Analyzer

end Resumable
