import Resumable.Proofs.Typing.Termination

/-!
# What an analysis finds

`Analyzer.analyze` carries frames around until nothing is left to do, and then walks every block once
more to note the frame before each instruction. `Analyzer.analyze_sound` says what its result is:
consistent entry frames, and the frames that walks from them meet. `Analyzer.analyze_complete` says
that there is a result if any consistent assignment exists.
-/

namespace Resumable

open List Subject

/-- The entry frame of a block, if it can be reached. -/
def Analysis.entryOf (a : Analysis) (b : Nat) : Option Frame := (a.entries[b]?).join

namespace Subject

variable {s : Subject} {l : List (Block × Option Frame)} {f g : Frame}

/-! ## Records of walks -/

theorem foldlM_record {ε : Type} (seen acc : List (Nat × Frame)) :
    seen.foldlM (fun acc p => (.ok (acc ++ [(p.1, p.2)]) : Except ε _)) acc =
      .ok (acc ++ seen) := by
  induction seen generalizing acc with
  | nil => simp [pure, Except.pure]
  | cons x seen ih =>
    rw [foldlM_cons, show (.ok (acc ++ [(x.1, x.2)]) >>= fun acc =>
      seen.foldlM (fun acc p => (.ok (acc ++ [(p.1, p.2)]) : Except ε _)) acc) =
      seen.foldlM (fun acc p => .ok (acc ++ [(p.1, p.2)])) (acc ++ [(x.1, x.2)]) from rfl, ih]
    simp

theorem walks_of_record {B : Block} {frames : List (Nat × Frame)} {rs : List Resolution}
    (h : s.record B f = .ok (frames, rs)) : ∃ g, s.Walks (members B) f frames g := by
  unfold record at h
  obtain ⟨⟨frames', t⟩, hw, h⟩ := bind_eq_ok.mp h
  obtain ⟨seen, hwalks, hfold⟩ := walks_of_walk hw
  rw [foldlM_record, nil_append] at hfold
  cases hfold
  cases h
  exact ⟨t.frame, hwalks⟩

theorem record_of_walks {B : Block} {seen : List (Nat × Frame)}
    (h : s.Walks (members B) f seen g) : ∃ rs, s.record B f = .ok (seen, rs) := by
  have hw : ∃ r, s.walk (fun acc i f => .ok (acc ++ [(i, f)])) (members B) [] ⟨f, []⟩ =
      .ok (seen, ⟨g, r⟩) := walk_of_walks h (foldlM_record seen []) []
  obtain ⟨r, hw⟩ := hw
  refine ⟨r, ?_⟩
  unfold record
  rw [bind_eq_ok]
  exact ⟨_, hw, rfl⟩

/-- The frames of all blocks are those that the walks of the blocks meet. -/
theorem recordAll_walks {frames : List (Nat × Frame)} {rs : List Resolution}
    (h : s.recordAll l = .ok (frames, rs)) :
    (∀ B f, (B, some f) ∈ l → ∃ seen g, s.Walks (members B) f seen g) ∧
      ∀ x, x ∈ frames ↔
        ∃ B f seen g, (B, some f) ∈ l ∧ s.Walks (members B) f seen g ∧ x ∈ seen := by
  induction l generalizing frames rs with
  | nil =>
    cases h
    simp
  | cons a l ih =>
    obtain ⟨B, entry⟩ := a
    cases entry with
    | none =>
      have hmem : ∀ B' f', (B', some f') ∈ (B, none) :: l ↔ (B', some f') ∈ l := by
        simp
      simp only [hmem]
      exact ih h
    | some f =>
      rw [recordAll, bind_eq_ok] at h
      obtain ⟨⟨fs, rs₁⟩, hr, h⟩ := h
      obtain ⟨⟨fs', rs₂⟩, hrest, h⟩ := bind_eq_ok.mp h
      cases h
      obtain ⟨g, hw⟩ := walks_of_record hr
      obtain ⟨h1, h2⟩ := ih hrest
      constructor
      · intro B' f' hm
        rcases mem_cons.mp hm with heq | hm
        · cases heq
          exact ⟨fs, g, hw⟩
        · exact h1 B' f' hm
      · intro x
        rw [mem_append, h2]
        constructor
        · rintro (hx | ⟨B', f', seen, g', hm, hw', hx⟩)
          · exact ⟨B, f, fs, g, mem_cons_self, hw, hx⟩
          · exact ⟨B', f', seen, g', mem_cons_of_mem _ hm, hw', hx⟩
        · rintro ⟨B', f', seen, g', hm, hw', hx⟩
          rcases mem_cons.mp hm with heq | hm
          · cases heq
            obtain ⟨rfl, _⟩ := hw'.unique hw
            exact Or.inl hx
          · exact Or.inr ⟨B', f', seen, g', hm, hw', hx⟩

theorem recordAll_succeeds (h : ∀ B f, (B, some f) ∈ l → ∃ seen g, s.Walks (members B) f seen g) :
    ∃ r, s.recordAll l = .ok r := by
  induction l with
  | nil => exact ⟨_, rfl⟩
  | cons a l ih =>
    obtain ⟨r, hr⟩ := ih fun B f hm => h B f (mem_cons_of_mem _ hm)
    obtain ⟨B, entry⟩ := a
    cases entry with
    | none => exact ⟨r, hr⟩
    | some f =>
      obtain ⟨seen, g, hw⟩ := h B f mem_cons_self
      obtain ⟨rs, hrec⟩ := record_of_walks hw
      refine ⟨(seen ++ r.1, rs ++ r.2), ?_⟩
      rw [recordAll, bind_eq_ok]
      refine ⟨_, hrec, ?_⟩
      rw [bind_eq_ok]
      exact ⟨r, hr, rfl⟩

end Subject

/-- A key that stands for one value only is looked up. -/
theorem lookup_eq_some_iff {β : Type} {l : List (Nat × β)} {k : Nat}
    (hl : ∀ v w, (k, v) ∈ l → (k, w) ∈ l → v = w) {v : β} : l.lookup k = some v ↔ (k, v) ∈ l := by
  induction l with
  | nil => simp
  | cons a l ih =>
    obtain ⟨k', w⟩ := a
    rw [lookup_cons]
    by_cases hk : k = k'
    · subst hk
      simp only [beq_self_eq_true]
      constructor
      · intro h
        cases h
        exact mem_cons_self
      · intro h
        rw [hl v w h mem_cons_self]
    · have hbeq : (k == k') = false := by simpa using hk
      rw [hbeq]
      simp only [ih fun v w hv hw => hl v w (mem_cons_of_mem _ hv) (mem_cons_of_mem _ hw)]
      simp [hk]

/-- Two assignments that are below each other are the same. -/
theorem assignment_antisymm {h : Hierarchy} (hg : h.Grounded) {σ τ : Nat → Option Frame}
    (hστ : ∀ ⦃b f⦄, σ b = some f → Admits h.Inherits τ b f)
    (hτσ : ∀ ⦃b f⦄, τ b = some f → Admits h.Inherits σ b f) : σ = τ := by
  have hle : ∀ b f, σ b = some f → τ b = some f := by
    intro b f hf
    obtain ⟨k, hk, hfk⟩ := hστ hf
    obtain ⟨f', hf', hkf⟩ := hτσ hk
    rw [hf] at hf'
    cases hf'
    rw [hk, hfk.antisymm hg hkf]
  funext b
  cases hσ : σ b with
  | some f => exact (hle b f hσ).symm
  | none =>
    cases hτ : τ b with
    | none => rfl
    | some f =>
      obtain ⟨k, hk, _⟩ := hτσ hτ
      rw [hσ] at hk
      cases hk

theorem Propagation.entries_ext {p q : Propagation} (hlen : p.entries.length = q.entries.length)
    (h : ∀ b, p.entryOf b = q.entryOf b) : p.entries = q.entries := by
  refine ext_getElem hlen fun b hp hq => ?_
  have := h b
  simpa [entryOf, hp, hq] using this

/-! ## Analyses -/

theorem Subject.length_entryFrame (params : List Ty) (n : Nat) :
    (entryFrame params n).locals.length = n := by
  simp only [entryFrame, length_take, length_append, length_replicate]
  omega

namespace Analyzer

variable {a : Analyzer} {f : Func} {is : List Instr} {g : Graph} {an : Analysis}
  {handlers : List Handler} {splits : List Int} {I : Text → Text → Prop}

/-- The frame that a function starts with. -/
def entryFrame (f : Func) : Frame := Subject.entryFrame f.params f.maxLocals.toNat

theorem analyze_eq_ok :
    a.analyze f is g = .ok an ↔
      (is.map Instr.opcode).find? (fun op => !a.supports op) = none ∧
        ∃ p frames rs, (a.subject f is g).propagate (entryFrame f) = .ok p ∧
          (a.subject f is g).recordAll (g.blocks.zip p.entries) = .ok (frames, rs) ∧
          an = { graph := g
                 frames := (range is.length).map fun i => frames.lookup i
                 entries := p.entries
                 resolutions := distinctResolutions rs } := by
  unfold analyze
  cases (is.map Instr.opcode).find? (fun op => !a.supports op) with
  | some op => simp [Attempt.fail, bind, Except.bind]
  | none =>
    simp only [true_and]
    show ((a.subject f is g).propagate (entryFrame f) >>= _) = _ ↔ _
    rw [bind_eq_ok]
    constructor
    · rintro ⟨p, hp, h⟩
      obtain ⟨⟨frames, rs⟩, hr, h⟩ := bind_eq_ok.mp h
      exact ⟨p, frames, rs, hp, hr, (pure_eq_ok.mp h).symm⟩
    · rintro ⟨p, frames, rs, hp, hr, rfl⟩
      refine ⟨p, hp, ?_⟩
      rw [bind_eq_ok]
      exact ⟨(frames, rs), hr, rfl⟩

/-- The pairs of blocks and entry frames. -/
theorem mem_zip_entries {p : Propagation} {B : Block} {k : Frame}
    (hd : g.Divides is handlers splits) :
    (B, some k) ∈ g.blocks.zip p.entries ↔ g.blocks[B.id]? = some B ∧ p.entryOf B.id = some k := by
  rw [mem_iff_getElem?]
  simp only [getElem?_zip_eq_some, Propagation.entryOf_eq_some]
  constructor
  · rintro ⟨b, hb, hk⟩
    obtain rfl := (hd.within hb).1
    exact ⟨hb, hk⟩
  · intro h
    exact ⟨B.id, h⟩

/-- The frames of an analysis are those that walks from its entry frames meet. -/
def Traces (s : Subject) (σ : Nat → Option Frame) (i : Nat) (F : Frame) : Prop :=
  ∃ b B k seen k', s.graph.blocks[b]? = some B ∧ σ b = some k ∧
    s.Walks (Subject.members B) k seen k' ∧ (i, F) ∈ seen

theorem Traces.within {s : Subject} {σ : Nat → Option Frame} {i : Nat} {F : Frame}
    (hd : s.graph.Divides s.body handlers splits) (h : Traces s σ i F) :
    ∃ B k seen k', s.graph.blocks[s.graph.blockNumber i]? = some B ∧ B.start ≤ i ∧ i < B.stop ∧
      σ (s.graph.blockNumber i) = some k ∧ s.Walks (members B) k seen k' ∧
      (i, F) ∈ seen := by
  obtain ⟨b, B, k, seen, k', hB, hk, hw, hm⟩ := h
  have hlt := (hd.within hB).2.1
  obtain ⟨_, _, _, _, h1, h2, _⟩ := hw.next hm
  have hn := hd.number hB h1 (by omega)
  exact ⟨B, k, seen, k', by rw [hn]; exact hB, h1, by omega, by rw [hn]; exact hk, hw, hm⟩

theorem nodup_members (B : Block) : (members B).Nodup := nodup_range'

/-- At most one frame is met before an instruction. -/
theorem Traces.unique {s : Subject} {σ : Nat → Option Frame} {i : Nat} {F F' : Frame}
    (hd : s.graph.Divides s.body handlers splits) (h : Traces s σ i F) (h' : Traces s σ i F') :
    F = F' := by
  obtain ⟨B, k, seen, k₁, hB, _, _, hk, hw, hm⟩ := h.within hd
  obtain ⟨B', k', seen', k₂, hB', _, _, hk', hw', hm'⟩ := h'.within hd
  rw [hB] at hB'
  cases hB'
  rw [hk] at hk'
  cases hk'
  obtain ⟨rfl, _⟩ := hw.unique hw'
  have hnodup : (seen.map Prod.fst).Nodup := by
    rw [hw.map_fst]
    exact nodup_members B
  have := inj_on_of_nodup_map hnodup hm hm' rfl
  exact (Prod.mk.inj this).2

theorem frameAt_iff (hd : g.Divides is handlers splits) (h : a.analyze f is g = .ok an) {i : Nat}
    {F : Frame} : an.frameAt i = some F ↔ Traces (a.subject f is g) an.entryOf i F := by
  obtain ⟨_, p, frames, rs, _, hr, rfl⟩ := analyze_eq_ok.mp h
  have htraces : ∀ i F, (i, F) ∈ frames ↔ Traces (a.subject f is g) p.entryOf i F := by
    intro i F
    rw [(recordAll_walks hr).2]
    constructor
    · rintro ⟨B, k, seen, k', hm, hw, hx⟩
      obtain ⟨hB, hk⟩ := (mem_zip_entries hd).mp hm
      exact ⟨B.id, B, k, seen, k', hB, hk, hw, hx⟩
    · rintro ⟨b, B, k, seen, k', hB, hk, hw, hx⟩
      obtain rfl := (hd.within (show g.blocks[b]? = some B from hB)).1
      exact ⟨B, k, seen, k', (mem_zip_entries hd).mpr ⟨hB, hk⟩, hw, hx⟩
  rw [show Analysis.entryOf { graph := g, frames := _, entries := p.entries, resolutions := _ } =
    p.entryOf from rfl, ← htraces]
  have hunique : ∀ F F', (i, F) ∈ frames → (i, F') ∈ frames → F = F' := fun F F' hF hF' =>
    Traces.unique (s := a.subject f is g) hd ((htraces i F).mp hF) ((htraces i F').mp hF')
  rw [← lookup_eq_some_iff hunique]
  show (((range is.length).map fun i => frames.lookup i)[i]?).join = some F ↔ _
  by_cases hi : i < is.length
  · simp [hi]
  · have hnone : frames.lookup i = none := by
      cases hl : frames.lookup i with
      | none => rfl
      | some F' =>
        have ht := (htraces i F').mp ((lookup_eq_some_iff hunique).mp hl)
        obtain ⟨B, _, _, _, hB, _, hlt, _⟩ := ht.within (s := a.subject f is g) hd
        have := (hd.within hB).2.2
        omega
    rw [hnone]
    simp [hi]

theorem blocks_ne_nil (hd : g.Divides is handlers splits) : g.blocks ≠ [] := by
  obtain ⟨B, hB, _⟩ := hd.first
  exact ne_nil_of_mem (mem_of_getElem? hB)

/-- **What an analysis finds is consistent,** in any order in which joins are upper bounds. -/
theorem analyze_sound (hb : a.classes.Bounds I) (hd : g.Divides is handlers splits)
    (h : a.analyze f is g = .ok an) :
    (a.subject f is g).Consistent I (entryFrame f) an.entryOf := by
  obtain ⟨_, p, _, _, hp, _, rfl⟩ := analyze_eq_ok.mp h
  have hne : (a.subject f is g).graph.blocks ≠ [] := blocks_ne_nil hd
  obtain ⟨k, hr, hq⟩ := rounds_of_settle hp
  exact ((underway_initial hne).rounds hb hr).consistent hq

/-- Entry frames have the locals of the function, and no higher stacks than the body can fill. -/
theorem entryOf_size (hd : g.Divides is handlers splits) (h : a.analyze f is g = .ok an) {b : Nat}
    {F : Frame} (hF : an.entryOf b = some F) :
    F.locals.length = f.maxLocals.toNat ∧ F.stack.length + g.sizeOf b ≤ 1 + is.length := by
  obtain ⟨_, p, _, _, hp, _, rfl⟩ := analyze_eq_ok.mp h
  have hstack : (entryFrame f).stack = [] := rfl
  obtain ⟨k, hr, _⟩ := rounds_of_settle hp
  have ht := hr.tame a.classes.bounds_true
    (tame_initial (s := a.subject f is g) (blocks_ne_nil hd) hstack)
  have h1 := ht.sized hF
  have h2 := ht.low hF
  have h3 := (a.subject f is g).reached_le p
  have h4 : ∑ b ∈ Finset.range g.blocks.length, g.sizeOf b ≤ is.length := hd.sum_sizeOf_le
  rw [show (entryFrame f).locals.length = f.maxLocals.toNat from
    length_entryFrame _ _] at h1
  refine ⟨h1, ?_⟩
  exact h2.trans (Nat.add_le_add_left (h3.trans h4) 1)

/-- **An analysis finds something if there is anything to find,** and what it finds is smaller. -/
theorem analyze_complete (hg : a.classes.Grounded) (hs : ∀ op, a.supports op = true)
    (hd : g.Divides is handlers splits) {τ : Nat → Option Frame}
    (hc : (a.subject f is g).Consistent a.classes.Inherits (entryFrame f) τ) :
    ∃ an, a.analyze f is g = .ok an := by
  let s := a.subject f is g
  have hne : s.graph.blocks ≠ [] := blocks_ne_nil hd
  have hsupports : (is.map Instr.opcode).find? (fun op => !a.supports op) = none := by
    simp [hs]
  have hstack : (entryFrame f).stack = [] := rfl
  have hsettle : ∃ p, s.propagate (entryFrame f) = .ok p := by
    rcases settle_of_potential_le (s := s) hd.sum_sizeOf_le hg
      (tame_initial hne hstack) (potential_initial_le hne hstack) with
      hok | ⟨k, q, b, e, hr, hb, he⟩
    · exact hok
    · -- A round that fails contradicts the assignment, which every run stays below.
      have hu : s.Underway a.classes.Inherits (entryFrame f) q :=
        (underway_initial hne).rounds hg.bounds hr
      have hbelow : s.Below q τ :=
        hr.stays_below hg hc (underway_initial hne) (below_initial hne hc)
      obtain ⟨F, hF⟩ := hu.queued hb
      obtain ⟨q', hq', _⟩ := spread_succeeds (p := q.take b) hg hc hbelow hu.length hF
      rw [he] at hq'
      cases hq'
  obtain ⟨p, hp⟩ := hsettle
  obtain ⟨k, hr, hq⟩ := rounds_of_settle hp
  have hcp : s.Consistent a.classes.Inherits (entryFrame f) p.entryOf :=
    ((underway_initial hne).rounds hg.bounds hr).consistent hq
  have hwalks : ∀ B k, (B, some k) ∈ g.blocks.zip p.entries →
      ∃ seen k', s.Walks (members B) k seen k' := by
    intro B k hm
    obtain ⟨hB, hk⟩ := (mem_zip_entries hd).mp hm
    obtain ⟨B', hB', seen, k', hw, _⟩ := hcp.block hk
    rw [show s.graph.blocks[B.id]? = some B from hB] at hB'
    cases hB'
    exact ⟨seen, k', hw⟩
  obtain ⟨⟨frames, rs⟩, hrec⟩ := recordAll_succeeds hwalks
  exact ⟨_, analyze_eq_ok.mpr ⟨hsupports, p, frames, rs, hp, hrec, rfl⟩⟩

/-- Every run of the worklist that comes to rest finds what the analysis finds. -/
theorem entries_of_rounds (hg : a.classes.Grounded) (hd : g.Divides is handlers splits)
    (h : a.analyze f is g = .ok an) {n : Nat} {q : Propagation}
    (hr : (a.subject f is g).Rounds n ((a.subject f is g).initial (entryFrame f)) q)
    (hq : q.queue = []) : an.entries = q.entries := by
  have hne := blocks_ne_nil hd
  obtain ⟨_, p, _, _, hp, _, rfl⟩ := analyze_eq_ok.mp h
  obtain ⟨k, hrp, hqp⟩ := rounds_of_settle hp
  have hup := (underway_initial (s := a.subject f is g) hne).rounds hg.bounds hrp
  have huq := (underway_initial (s := a.subject f is g) hne).rounds hg.bounds hr
  have hpq := hrp.stays_below hg (huq.consistent hq) (underway_initial hne)
    (below_initial hne (huq.consistent hq))
  have hqp := hr.stays_below hg (hup.consistent hqp) (underway_initial hne)
    (below_initial hne (hup.consistent hqp))
  exact Propagation.entries_ext (hup.length.trans huq.length.symm)
    (congrFun (assignment_antisymm hg hpq hqp))

end Analyzer

end Resumable
