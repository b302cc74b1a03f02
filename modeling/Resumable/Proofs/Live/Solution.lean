import Mathlib.Algebra.BigOperators.Group.Finset.Basic
import Mathlib.Algebra.Order.BigOperators.Group.Finset
import Mathlib.Data.Finset.Card
import Resumable.Proofs.Live.Transfer

/-!
# The live positions of a body

On a body whose frames are known the search for live positions comes to an end within its rounds,
and what it finds is a solution: no block needs more at its entry than the table says. The rounds
are enough because each but the last adds one of finitely many positions to a block. `Liveness.Table`
says what a solution means for single instructions, without blocks and without bit sets.
-/

namespace Resumable

open List

namespace Liveness

/-- The frames of an analysis fit its graph and the body. -/
structure Framed (l : Liveness) (ctx : TypingContext) (handlers : List Handler) (splits : List Int)
    (entry : Frame) : Prop where
  unit : ctx.unit = l.unit
  divides : l.analysis.graph.Divides l.body handlers splits
  typing : Typing (fun _ _ => True) ctx l.body handlers entry l.analysis.frameAt
  /-- An entry frame is the frame before the first instruction, and all others have one as well. -/
  starts : ∀ {b : Nat} {B : Block} {F : Frame}, l.analysis.graph.blocks[b]? = some B →
    l.analysis.entryOf b = some F → l.analysis.frameAt B.start = some F ∧
      ∀ i, B.start ≤ i → i < B.stop → ∃ F', l.analysis.frameAt i = some F'
  reached : ∀ {i : Nat} {F : Frame}, l.analysis.frameAt i = some F →
    ∃ k, l.analysis.entryOf (l.analysis.graph.blockNumber i) = some k
  frames : l.analysis.frames.length = l.body.length
  locals : ∀ {i : Nat} {F : Frame}, l.analysis.frameAt i = some F → F.locals.length = l.locals
  height : ∀ {b : Nat} {F : Frame}, l.analysis.entryOf b = some F →
    F.stack.length ≤ l.body.length

/-- Besides, positions fit into 32 bits. -/
structure Fits (l : Liveness) (ctx : TypingContext) (handlers : List Handler) (splits : List Int)
    (entry : Frame) : Prop extends Framed l ctx handlers splits entry where
  narrow : ∀ {i : Nat} {F : Frame}, l.analysis.frameAt i = some F →
    l.locals + F.stack.length < 2 ^ 32

variable {l : Liveness} {ctx : TypingContext} {handlers : List Handler} {splits : List Int}
  {entry F : Frame} {bs : List Block} {is : List Nat} {grew : Bool} {i : Nat}

section

variable {a : Analyzer} {f : Func} {is : List Instr} {g : Graph} {an : Analysis}
  (hd : g.Divides is handlers splits) (h : a.analyze f is g = .ok an)

include hd h

theorem framed_of_analyze :
    Framed { unit := a.unit, locals := f.maxLocals.toNat, body := is, analysis := an }
      (a.context f) handlers splits (Analyzer.entryFrame f) := by
  have hgraph := Analyzer.graph_of_analyze h
  refine ⟨rfl, ?_, ?_, ?_, ?_, Analyzer.length_frames h, ?_, ?_⟩
  · show an.graph.Divides is handlers splits
    rw [hgraph]
    exact hd
  · exact Analyzer.typing_of_analyze a.classes.bounds_true hd h
  · intro b B F hB hF
    replace hB : g.blocks[b]? = some B := by
      rw [← hgraph]
      exact hB
    exact Analyzer.frames_of_entryOf hd h hB hF
  · intro i F hF
    obtain ⟨B, k, seen, k', _, _, _, hk, _, _⟩ :=
      ((Analyzer.frameAt_iff hd h).mp hF).within (s := a.subject f is g) hd
    rw [← hgraph] at hk
    exact ⟨k, hk⟩
  · exact Analyzer.length_locals_of_frameAt hd h
  · intro b F hF
    obtain ⟨B, hB, _⟩ := (Analyzer.analyze_sound a.classes.bounds_true hd h).block hF
    have hlt := (hd.within (show g.blocks[b]? = some B from hB)).2.1
    have hsize := (Analyzer.entryOf_size hd h hF).2
    have hpos : 0 < g.sizeOf b := by
      unfold Graph.sizeOf
      rw [show g.blocks[b]? = some B from hB]
      exact Nat.sub_pos_of_lt hlt
    show F.stack.length ≤ is.length
    omega

theorem fits_of_analyze
    (hn : ∀ i F, an.frameAt i = some F → f.maxLocals.toNat + F.stack.length < 2 ^ 32) :
    Fits { unit := a.unit, locals := f.maxLocals.toNat, body := is, analysis := an }
      (a.context f) handlers splits (Analyzer.entryFrame f) :=
  { framed_of_analyze hd h with narrow := @fun i F hF => hn i F hF }

end

variable (hf : l.Framed ctx handlers splits entry) (hl : l.Fits ctx handlers splits entry)

/-! ## Walks against the flow -/

include hf in
theorem Framed.effect (hF : l.analysis.frameAt i = some F) :
    ∃ instr pops pushes, l.body[i]? = some instr ∧
      instr.stackEffect l.unit = some (pops, pushes) ∧ pops ≤ F.stack.length := by
  obtain ⟨instr, F', hi, hy, _⟩ := hf.typing.step hF
  obtain ⟨pops, outs, he, hp, _⟩ := hy.stackEffect
  rw [hf.unit] at he
  exact ⟨instr, pops, outs.length, hi, he, hp⟩

theorem walkBack_cons_eq_ok {caught live live' : BitSet} {rest : List Nat} :
    l.walkBack caught (i :: rest) live = .ok live' ↔
      ∃ instr F before, l.body[i]? = some instr ∧ l.analysis.frameAt i = some F ∧
        l.transfer instr F.stack.length (live ∪ caught) = .ok before ∧
        l.walkBack caught rest before = .ok live' := by
  simp only [walkBack, bind_eq_ok, Attempt.ofOption_eq_ok]
  grind

theorem walkBack_append {caught live live' : BitSet} {is js : List Nat} :
    l.walkBack caught (is ++ js) live = .ok live' ↔
      ∃ mid, l.walkBack caught is live = .ok mid ∧ l.walkBack caught js mid = .ok live' := by
  induction is generalizing live with
  | nil => simp [walkBack]
  | cons i is ih =>
    rw [cons_append, walkBack_cons_eq_ok]
    simp only [walkBack_cons_eq_ok, ih]
    grind

include hf in
theorem Framed.walkBack_succeeds {caught live : BitSet}
    (his : ∀ i ∈ is, ∃ F, l.analysis.frameAt i = some F) :
    ∃ live', l.walkBack caught is live = .ok live' := by
  induction is generalizing live with
  | nil => exact ⟨live, rfl⟩
  | cons i is ih =>
    obtain ⟨F, hF⟩ := his i mem_cons_self
    obtain ⟨instr, pops, pushes, hi, he, _⟩ := hf.effect hF
    obtain ⟨before, hb⟩ := transfer_succeeds he F.stack.length (live ∪ caught)
    obtain ⟨live', h⟩ := ih fun j hj => his j (mem_cons_of_mem i hj)
    exact ⟨live', walkBack_cons_eq_ok.mpr ⟨instr, F, before, hi, hF, hb, h⟩⟩

include hl in
/-- Before an instruction of a fitting body the analysis finds what the instruction needs. -/
theorem Fits.mem_transfer {instr : Instr} {pops pushes : Nat} {after before : BitSet} {v : UInt32}
    (hF : l.analysis.frameAt i = some F) (hi : l.body[i]? = some instr)
    (he : instr.stackEffect l.unit = some (pops, pushes))
    (h : l.transfer instr F.stack.length after = .ok before) :
    before.contains v ↔ instr.Needs l.locals (F.stack.length - pops) F.stack.length
      (fun v => after.contains v) v := by
  obtain ⟨instr', pops', pushes', hi', he', hp⟩ := hl.effect hF
  rw [hi] at hi'
  cases hi'
  rw [he] at he'
  cases he'
  exact Liveness.mem_transfer he hp (hl.narrow hF) h

include hl in
/-- More needs behind a row of instructions lead to more needs before it. -/
theorem Fits.walkBack_mono {caught caught' live live' before before' : BitSet}
    (hc : ∀ v, caught.contains v → caught'.contains v)
    (ha : ∀ v, live.contains v → live'.contains v)
    (h : l.walkBack caught is live = .ok before) (h' : l.walkBack caught' is live' = .ok before') :
    ∀ v, before.contains v → before'.contains v := by
  induction is generalizing live live' with
  | nil =>
    cases h
    cases h'
    exact ha
  | cons i is ih =>
    obtain ⟨instr, F, mid, hi, hF, hm, h⟩ := walkBack_cons_eq_ok.mp h
    obtain ⟨instr', F', mid', hi', hF', hm', h'⟩ := walkBack_cons_eq_ok.mp h'
    rw [hi] at hi'
    cases hi'
    rw [hF] at hF'
    cases hF'
    obtain ⟨instr', pops, pushes, hi', he, _⟩ := hl.effect hF
    rw [hi] at hi'
    cases hi'
    refine ih ?_ h h'
    intro v hv
    rw [hl.mem_transfer hF hi he hm] at hv
    rw [hl.mem_transfer hF hi he hm']
    refine hv.mono fun u hu => ?_
    rw [BitSet.contains_union] at hu ⊢
    exact hu.imp (ha u) (hc u)

theorem walkBack_inReach {caught live before : BitSet} (hc : caught.InReach)
    (ha : live.InReach) (h : l.walkBack caught is live = .ok before) : before.InReach := by
  induction is generalizing live with
  | nil =>
    cases h
    exact ha
  | cons i is ih =>
    obtain ⟨_, _, mid, _, _, hm, h⟩ := walkBack_cons_eq_ok.mp h
    exact ih (transfer_inReach (ha.union hc) hm) h

/-! ## Needs at the entries of blocks -/

/-- What a table says about the entry of a block. -/
def needAt (entries : List BitSet) (b : Nat) : BitSet := entries.getD b ∅

/-- Every need of one table is one of another. -/
def Within (entries entries' : List BitSet) : Prop :=
  ∀ b v, (needAt entries b).contains v → (needAt entries' b).contains v

/-- Every row of a table ends where numbers of 32 bits do. -/
def InReach (entries : List BitSet) : Prop := ∀ b, (needAt entries b).InReach

variable {E E' : List BitSet} {b c : Nat} {B : Block} {live : BitSet} {v : UInt32}

theorem contains_entriesOf {bs : List Nat} :
    (entriesOf E bs).contains v ↔ ∃ b ∈ bs, (needAt E b).contains v := by
  have hfold : ∀ (bs : List Nat) (s : BitSet),
      (bs.foldl (fun s b => s ∪ E.getD b ∅) s).contains v ↔
        s.contains v ∨ ∃ b ∈ bs, (needAt E b).contains v := by
    intro bs
    induction bs with
    | nil => simp
    | cons b bs ih =>
      intro s
      rw [foldl_cons, ih, BitSet.contains_union, exists_mem_cons_iff, or_assoc]
      rfl
  unfold entriesOf
  rw [hfold]
  simp

theorem inReach_entriesOf (hE : InReach E) (bs : List Nat) : (entriesOf E bs).InReach := by
  have hfold : ∀ (bs : List Nat) (s : BitSet), s.InReach →
      (bs.foldl (fun s b => s ∪ E.getD b ∅) s).InReach := by
    intro bs
    induction bs with
    | nil => exact fun s hs => hs
    | cons b bs ih => exact fun s hs => ih _ (hs.union (hE b))
  exact hfold bs ∅ BitSet.inReach_empty

theorem liveIn_inReach (hE : InReach E) (h : l.liveIn E B = .ok live) : live.InReach :=
  walkBack_inReach ((inReach_entriesOf hE _).below _) (inReach_entriesOf hE _) h

theorem Within.contains_liveOut (h : Within E E') (hv : (liveOut E B).contains v) :
    (liveOut E' B).contains v := by
  unfold liveOut at *
  rw [contains_entriesOf] at hv ⊢
  obtain ⟨b, hb, hv⟩ := hv
  exact ⟨b, hb, h b v hv⟩

theorem Within.contains_liveCaught (h : Within E E') (hv : (l.liveCaught E B).contains v) :
    (l.liveCaught E' B).contains v := by
  unfold liveCaught at *
  rw [BitSet.contains_below, contains_entriesOf] at hv ⊢
  obtain ⟨hlt, b, hb, hv⟩ := hv
  exact ⟨hlt, b, hb, h b v hv⟩

include hl in
theorem Fits.liveIn_mono {live' : BitSet} (hE : Within E E') (h : l.liveIn E B = .ok live) (h' : l.liveIn E' B = .ok live') :
    ∀ v, live.contains v → live'.contains v :=
  hl.walkBack_mono (fun _ => hE.contains_liveCaught) (fun _ => hE.contains_liveOut) h h'

include hf in
theorem Framed.liveIn_succeeds (hB : l.analysis.graph.blocks[b]? = some B)
    (hF : l.analysis.entryOf b = some F) : ∃ live, l.liveIn E B = .ok live := by
  refine hf.walkBack_succeeds fun i hi => ?_
  unfold Subject.members at hi
  rw [mem_reverse, mem_range'_1] at hi
  exact (hf.starts hB hF).2 i hi.1 (by omega)

include hl in
/-- The needs of a block are locals and the slots of its entry frame. -/
theorem Fits.liveIn_lt (hB : l.analysis.graph.blocks[b]? = some B)
    (hF : l.analysis.entryOf b = some F) (h : l.liveIn E B = .ok live) (hv : live.contains v) :
    v.toNat < l.locals + l.body.length + 1 := by
  have hlt := (hl.divides.within hB).2.1
  obtain ⟨n, hn⟩ : ∃ n, B.stop - B.start = n + 1 := ⟨B.stop - B.start - 1, by omega⟩
  unfold liveIn Subject.members at h
  rw [hn, range'_succ, reverse_cons, walkBack_append] at h
  obtain ⟨mid, _, h⟩ := h
  obtain ⟨instr, F', before, hi, hF', ht, h⟩ := walkBack_cons_eq_ok.mp h
  cases h
  have hstart := (hl.starts hB hF).1
  rw [hF'] at hstart
  cases hstart
  obtain ⟨G, hy, _⟩ := hl.typing.step_at hF' hi
  obtain ⟨pops, outs, he, _⟩ := hy.stackEffect
  rw [hl.mem_transfer hF' hi (hl.unit ▸ he) ht, ← hl.locals hF'] at hv
  have hlt := hv.lt hy he
  have hheight := hl.height hF
  rw [hl.locals hF'] at hlt
  omega

/-! ## Rounds -/

/-- The table after a look at a block. -/
def learn (E : List BitSet) (b : Nat) (live : BitSet) : List BitSet :=
  E.set b (needAt E b ∪ live)

theorem needAt_learn (hb : b < E.length) :
    needAt (learn E b live) c = if c = b then needAt E b ∪ live else needAt E c := by
  unfold learn needAt
  split
  next h =>
    subst h
    simp [hb]
  next h => simp [getD, getElem?_set_ne (Ne.symm h)]

theorem contains_needAt_learn (hb : b < E.length) :
    (needAt (learn E b live) c).contains v ↔
      (needAt E c).contains v ∨ (c = b ∧ live.contains v) := by
  rw [needAt_learn hb]
  split
  next h =>
    subst h
    simp
  next h => simp [h]

theorem length_learn : (learn E b live).length = E.length := length_set

theorem Within.refl (E : List BitSet) : Within E E := fun _ _ h => h

theorem Within.trans {E'' : List BitSet} (h : Within E E') (h' : Within E' E'') : Within E E'' :=
  fun b v hv => h' b v (h b v hv)

theorem within_learn (hb : b < E.length) : Within E (learn E b live) := fun _ _ hv =>
  (contains_needAt_learn hb).mpr (.inl hv)

theorem inReach_learn (hE : InReach E) (hl : live.InReach) : InReach (learn E b live) := by
  by_cases hb : b < E.length
  · intro c
    rw [needAt_learn hb]
    split
    · exact (hE b).union hl
    · exact hE c
  · rwa [learn, set_eq_of_length_le (Nat.not_lt.mp hb)]

theorem improve_cons_eq_ok :
    l.improve (B :: bs) E = .ok (E', grew) ↔
      (l.analysis.entryOf B.id = none ∧ l.improve bs E = .ok (E', grew)) ∨
      ∃ F live grew', l.analysis.entryOf B.id = some F ∧ l.liveIn E B = .ok live ∧
        l.improve bs (learn E B.id live) = .ok (E', grew') ∧
        grew = (grew' || !live.subset (needAt E B.id)) := by
  rw [improve, show (l.analysis.entries[B.id]?).join = l.analysis.entryOf B.id from rfl]
  cases l.analysis.entryOf B.id with
  | none => simp
  | some F =>
    simp only [bind_eq_ok, pure_eq_ok, Prod.exists, Prod.mk.injEq, reduceCtorEq, false_and,
      false_or, Option.some.injEq]
    constructor
    · rintro ⟨live, hlive, E'', grew', h, rfl, rfl⟩
      exact ⟨F, live, grew', rfl, hlive, h, rfl⟩
    · rintro ⟨_, live, grew', rfl, hlive, h, rfl⟩
      exact ⟨live, hlive, E', grew', h, rfl, rfl⟩

/-- What every look at a block keeps, a round over blocks keeps. -/
theorem improve_induction (motive : List BitSet → Prop)
    (hstep : ∀ B ∈ bs, ∀ E F live, motive E → l.analysis.entryOf B.id = some F →
      l.liveIn E B = .ok live → motive (learn E B.id live))
    (h0 : motive E) (h : l.improve bs E = .ok (E', grew)) : motive E' := by
  induction bs generalizing E grew with
  | nil =>
    cases h
    exact h0
  | cons B bs ih =>
    have hstep' := fun B' hB' => hstep B' (mem_cons_of_mem B hB')
    rcases improve_cons_eq_ok.mp h with ⟨_, h⟩ | ⟨F, live, grew', hF, hlive, h, _⟩
    · exact ih hstep' h0 h
    · exact ih hstep' (hstep B mem_cons_self E F live h0 hF hlive) h

theorem improve_within (hlen : ∀ B ∈ bs, B.id < E.length)
    (h : l.improve bs E = .ok (E', grew)) : Within E E' := by
  refine (improve_induction (fun E'' => E''.length = E.length ∧ Within E E'') ?_
    ⟨rfl, .refl E⟩ h).2
  rintro B hB E'' F live ⟨hlen', hw⟩ _ _
  have hb : B.id < E''.length := by
    rw [hlen']
    exact hlen B hB
  exact ⟨length_learn.trans hlen', hw.trans (within_learn hb)⟩

/-- What every look at a block keeps, all rounds keep. -/
theorem settle_induction (motive : List BitSet → Prop) {rounds : Nat}
    (hstep : ∀ B ∈ l.analysis.graph.blocks, ∀ E F live, motive E →
      l.analysis.entryOf B.id = some F → l.liveIn E B = .ok live → motive (learn E B.id live))
    (h0 : motive E) (h : l.settle rounds E = .ok E') : motive E' := by
  induction rounds generalizing E with
  | zero => cases h
  | succ rounds ih =>
    obtain ⟨⟨E₁, grew⟩, h1, h⟩ := bind_eq_ok.mp h
    have hE₁ : motive E₁ :=
      improve_induction motive (fun B hB => hstep B (mem_reverse.mp hB)) h0 h1
    cases grew with
    | true => exact ih hE₁ h
    | false =>
      cases h
      exact hE₁

/-- A table that no block needs more than. -/
def Solves (l : Liveness) (E : List BitSet) : Prop :=
  ∀ {b : Nat} {B : Block} {F : Frame}, l.analysis.graph.blocks[b]? = some B →
    l.analysis.entryOf b = some F →
    ∃ live, l.liveIn E B = .ok live ∧ ∀ v, live.contains v → (needAt E b).contains v

section

variable {bs : List Block} (hbs : ∀ B ∈ bs, l.analysis.graph.blocks[B.id]? = some B)

include hf hbs in
theorem Framed.improve_succeeds : ∃ E' grew, l.improve bs E = .ok (E', grew) := by
  induction bs generalizing E with
  | nil => exact ⟨E, false, rfl⟩
  | cons B bs ih =>
    have hbs' := fun B' hB' => hbs B' (mem_cons_of_mem B hB')
    cases hF : l.analysis.entryOf B.id with
    | none =>
      obtain ⟨E', grew, h⟩ := @ih E hbs'
      exact ⟨E', grew, improve_cons_eq_ok.mpr (.inl ⟨hF, h⟩)⟩
    | some F =>
      obtain ⟨live, hlive⟩ := hf.liveIn_succeeds (E := E) (hbs B mem_cons_self) hF
      obtain ⟨E', grew, h⟩ := @ih (learn E B.id live) hbs'
      exact ⟨E', _, improve_cons_eq_ok.mpr (.inr ⟨F, live, grew, hF, hlive, h, rfl⟩)⟩

include hl hbs in
/-- A round that adds nothing leaves the table as it was, and what its blocks need is in it. -/
theorem Fits.improve_still (hlen : ∀ B ∈ bs, B.id < E.length)
    (h : l.improve bs E = .ok (E', false)) :
    Within E' E ∧ ∀ B ∈ bs, ∀ F, l.analysis.entryOf B.id = some F →
      ∃ live, l.liveIn E B = .ok live ∧ ∀ v, live.contains v → (needAt E B.id).contains v := by
  induction bs generalizing E with
  | nil =>
    cases h
    exact ⟨.refl _, fun B hB => by cases hB⟩
  | cons B bs ih =>
    have hbs' := fun B' hB' => hbs B' (mem_cons_of_mem B hB')
    have hlen' := fun B' hB' => hlen B' (mem_cons_of_mem B hB')
    rcases improve_cons_eq_ok.mp h with ⟨hnone, h⟩ | ⟨F, live, grew', hF, hlive, h, hgrew⟩
    · obtain ⟨hw, hsolved⟩ := ih hbs' hlen' h
      refine ⟨hw, fun B' hB' F hF => ?_⟩
      rcases mem_cons.mp hB' with rfl | hB'
      · rw [hnone] at hF
        cases hF
      · exact hsolved B' hB' F hF
    · obtain ⟨rfl, hsub⟩ : grew' = false ∧ live.subset (needAt E B.id) = true := by
        simpa using hgrew.symm
      have hb := hlen B mem_cons_self
      have hback : Within (learn E B.id live) E := by
        intro c v hv
        rcases (contains_needAt_learn hb).mp hv with hv | ⟨rfl, hv'⟩
        · exact hv
        · exact BitSet.contains_of_subset hsub hv'
      obtain ⟨hw, hsolved⟩ := ih hbs' (by rwa [length_learn]) h
      refine ⟨hw.trans hback, fun B' hB' F' hF' => ?_⟩
      rcases mem_cons.mp hB' with rfl | hB'
      · exact ⟨live, hlive, fun v => BitSet.contains_of_subset hsub⟩
      · -- The later blocks were looked at with a table that says the same.
        obtain ⟨live', hlive', hin⟩ := hsolved B' hB' F' hF'
        obtain ⟨live'', hlive''⟩ := hl.liveIn_succeeds (E := E) (hbs' B' hB') hF'
        refine ⟨live'', hlive'', fun v hv => ?_⟩
        exact hback _ _ (hin v (hl.liveIn_mono (within_learn hb) hlive'' hlive' v hv))

include hl hbs in
/-- A round that adds something adds one of the positions of the body. -/
theorem Fits.improve_grows (hlen : ∀ B ∈ bs, B.id < E.length) (hE : InReach E)
    (h : l.improve bs E = .ok (E', true)) :
    ∃ B ∈ bs, ∃ v, v.toNat < l.locals + l.body.length + 1 ∧
      (needAt E' B.id).contains v ∧ ¬(needAt E B.id).contains v := by
  induction bs generalizing E with
  | nil => cases h
  | cons B bs ih =>
    have hbs' := fun B' hB' => hbs B' (mem_cons_of_mem B hB')
    have hlen' := fun B' hB' => hlen B' (mem_cons_of_mem B hB')
    rcases improve_cons_eq_ok.mp h with ⟨hnone, h⟩ | ⟨F, live, grew', hF, hlive, h, hgrew⟩
    · obtain ⟨B', hB', hv⟩ := ih hbs' hlen' hE h
      exact ⟨B', mem_cons_of_mem B hB', hv⟩
    · have hb := hlen B mem_cons_self
      have hreach := liveIn_inReach hE hlive
      have hw' : Within (learn E B.id live) E' := improve_within (by rwa [length_learn]) h
      cases hsub : live.subset (needAt E B.id) with
      | false =>
        obtain ⟨v, hv, hnot⟩ := BitSet.exists_of_not_subset hreach hsub
        refine ⟨B, mem_cons_self, v, ?_, ?_, by rw [hnot]; exact Bool.false_ne_true⟩
        · exact hl.liveIn_lt (hbs B mem_cons_self) hF hlive hv
        · exact hw' _ _ ((contains_needAt_learn hb).mpr (.inr ⟨rfl, hv⟩))
      | true =>
        obtain rfl : grew' = true := by
          simpa [hsub] using hgrew.symm
        obtain ⟨B', hB', v, hv, hin, hnot⟩ :=
          ih hbs' (by rwa [length_learn]) (inReach_learn hE hreach) h
        refine ⟨B', mem_cons_of_mem B hB', v, hv, hin, fun hold => hnot ?_⟩
        exact within_learn hb _ _ hold

end

/-! ## Enough rounds -/

/-- The number of positions in a table, among those that a body has. -/
def weight (l : Liveness) (E : List BitSet) : Nat :=
  ∑ b ∈ Finset.range l.analysis.graph.blocks.length,
    ((Finset.range (l.locals + l.body.length + 1)).filter
      fun p => (needAt E b).contains (UInt32.ofNat p)).card

theorem weight_le (E : List BitSet) :
    l.weight E ≤ l.analysis.graph.blocks.length * (l.locals + l.body.length + 1) := by
  unfold weight
  calc _ ≤ ∑ b ∈ Finset.range l.analysis.graph.blocks.length, (l.locals + l.body.length + 1) := by
        refine Finset.sum_le_sum fun b _ => (Finset.card_filter_le _ _).trans ?_
        rw [Finset.card_range]
    _ = _ := by
        rw [Finset.sum_const, Finset.card_range]
        rfl

theorem weight_lt (hw : Within E E') (hb : b < l.analysis.graph.blocks.length)
    (hv : v.toNat < l.locals + l.body.length + 1) (hin : (needAt E' b).contains v)
    (hnot : ¬(needAt E b).contains v) : l.weight E < l.weight E' := by
  unfold weight
  refine Finset.sum_lt_sum (fun c _ => Finset.card_le_card ?_)
    ⟨b, Finset.mem_range.mpr hb, Finset.card_lt_card ?_⟩
  · exact Finset.monotone_filter_right _ fun p _ hp => hw c _ hp
  · refine Finset.ssubset_iff_subset_ne.mpr
      ⟨Finset.monotone_filter_right _ fun p _ hp => hw b _ hp, fun heq => hnot ?_⟩
    have hmem : v.toNat ∈ (Finset.range (l.locals + l.body.length + 1)).filter
        fun p => (needAt E' b).contains (UInt32.ofNat p) := by
      rw [Finset.mem_filter, Finset.mem_range, UInt32.ofNat_toNat]
      exact ⟨hv, hin⟩
    rw [← heq, Finset.mem_filter, UInt32.ofNat_toNat] at hmem
    exact hmem.2

include hf in
theorem Framed.block_id (hB : B ∈ l.analysis.graph.blocks) :
    l.analysis.graph.blocks[B.id]? = some B := by
  obtain ⟨b, hb⟩ := mem_iff_getElem?.mp hB
  rw [(hf.divides.within hb).1]
  exact hb

include hl in
/-- **The search ends within its rounds, with a solution.** Each round but the last adds a position,
so the weight of the table goes up. -/
theorem Fits.settle_solves {rounds : Nat}
    (hlen : E.length = l.analysis.graph.blocks.length) (hE : InReach E)
    (hr : l.analysis.graph.blocks.length * (l.locals + l.body.length + 1) < rounds + l.weight E) :
    ∃ E', l.settle rounds E = .ok E' ∧ l.Solves E' := by
  induction rounds generalizing E with
  | zero =>
    have := l.weight_le E
    omega
  | succ rounds ih =>
    have hbs : ∀ B ∈ l.analysis.graph.blocks.reverse,
        l.analysis.graph.blocks[B.id]? = some B :=
      fun B hB => hl.block_id (mem_reverse.mp hB)
    have hids : ∀ B ∈ l.analysis.graph.blocks.reverse, B.id < E.length := by
      intro B hB
      rw [hlen]
      exact lt_of_getElem? (hbs B hB)
    obtain ⟨E₁, grew, h1⟩ := hl.improve_succeeds hbs (E := E)
    have hlen₁ : E₁.length = l.analysis.graph.blocks.length ∧ InReach E₁ := by
      refine improve_induction
        (fun E => E.length = l.analysis.graph.blocks.length ∧ InReach E) ?_ ⟨hlen, hE⟩ h1
      rintro B hB E₂ F live ⟨hlen₂, hE₂⟩ _ hlive
      have hid : B.id < E₂.length := by
        rw [hlen₂, ← hlen]
        exact hids B hB
      exact ⟨length_learn.trans hlen₂, inReach_learn hE₂ (liveIn_inReach hE₂ hlive)⟩
    have hup₁ : Within E E₁ := improve_within hids h1
    cases grew with
    | true =>
      obtain ⟨B, hB, v, hv, hin, hnot⟩ := hl.improve_grows hbs hids hE h1
      have hup : l.weight E < l.weight E₁ :=
        weight_lt hup₁ (List.getElem?_eq_some_iff.mp (hbs B hB)).1 hv hin hnot
      obtain ⟨E', h, hs⟩ := ih hlen₁.1 hlen₁.2 (by omega)
      refine ⟨E', ?_, hs⟩
      rw [settle, bind_eq_ok]
      exact ⟨(E₁, true), h1, h⟩
    | false =>
      refine ⟨E₁, ?_, ?_⟩
      · rw [settle, bind_eq_ok]
        exact ⟨(E₁, false), h1, rfl⟩
      · intro b B F hB hF
        obtain rfl := (hl.divides.within hB).1
        obtain ⟨hw, hsolved⟩ := hl.improve_still hbs hids h1
        have hmem := mem_reverse.mpr (mem_of_getElem? hB)
        obtain ⟨live, hlive, hin⟩ := hsolved B hmem F hF
        obtain ⟨live', hlive'⟩ := hl.liveIn_succeeds (E := E₁) hB hF
        refine ⟨live', hlive', fun v hv => ?_⟩
        exact hup₁ _ _ (hin v (hl.liveIn_mono hw hlive' hlive v hv))

/-- The search starts with a table that says nothing. -/
theorem needAt_unknown (blocks : List Block) (b : Nat) :
    needAt (blocks.map fun _ => ∅) b = ∅ := by
  simp [needAt, getD_eq_getElem?_getD]

theorem inReach_unknown {blocks : List Block} : InReach (blocks.map fun _ => ∅) := by
  intro b
  rw [needAt_unknown]
  exact BitSet.inReach_empty

include hl in
theorem Fits.entries_solve : ∃ E, l.entries = .ok E ∧ l.Solves E := by
  refine hl.settle_solves (length_map _) inReach_unknown ?_
  unfold enoughRounds
  have : l.analysis.graph.blocks.length * (l.locals + l.body.length + 1) ≤
      l.analysis.graph.blocks.length * (l.locals + l.body.length + 2) :=
    Nat.mul_le_mul_left _ (by omega)
  omega

/-! ## Single instructions -/

/-- What is needed before an instruction. -/
def LiveBefore (l : Liveness) (E : List BitSet) (i : Nat) (v : UInt32) : Prop :=
  ∃ B live, l.analysis.graph.blocks[l.analysis.graph.blockNumber i]? = some B ∧
    l.walkBack (l.liveCaught E B) (List.range' i (B.stop - i)).reverse (liveOut E B) = .ok live ∧
    live.contains v

/-- What is needed after an instruction, by what follows it and by its handlers. -/
def LiveAfter (l : Liveness) (E : List BitSet) (i : Nat) (v : UInt32) : Prop :=
  ∃ B live, l.analysis.graph.blocks[l.analysis.graph.blockNumber i]? = some B ∧
    l.walkBack (l.liveCaught E B) (List.range' (i + 1) (B.stop - (i + 1))).reverse
      (liveOut E B) = .ok live ∧
    (live ∪ l.liveCaught E B).contains v

/-- What is needed before and after single instructions. Locals are needed by handlers wherever they
may be entered from. -/
structure Table (l : Liveness) (handlers : List Handler) (before after : Nat → UInt32 → Prop) :
    Prop where
  needs : ∀ {i : Nat} {F : Frame} {instr : Instr} {pops pushes : Nat} {v : UInt32},
    l.analysis.frameAt i = some F → l.body[i]? = some instr →
    instr.stackEffect l.unit = some (pops, pushes) →
    (before i v ↔
      instr.Needs l.locals (F.stack.length - pops) F.stack.length (after i) v)
  next : ∀ {i j : Nat} {F : Frame} {instr : Instr} {v : UInt32},
    l.analysis.frameAt i = some F → l.body[i]? = some instr → j ∈ Graph.nexts instr i →
    before j v → after i v
  caught : ∀ {i : Nat} {F : Frame} {h : Handler} {v : UInt32},
    l.analysis.frameAt i = some F → h ∈ handlers → h.covers i → before h.target.toNat v →
    v.toNat < l.locals → after i v

/-- The block of an instruction and a walk over it are the only ones. -/
theorem exists_walk_iff {w : Block → List Nat} {p : Block → BitSet → Prop}
    (hB : l.analysis.graph.blocks[b]? = some B)
    (hw : l.walkBack (l.liveCaught E B) (w B) (liveOut E B) = .ok live) :
    (∃ B live, l.analysis.graph.blocks[b]? = some B ∧
      l.walkBack (l.liveCaught E B) (w B) (liveOut E B) = .ok live ∧ p B live) ↔ p B live := by
  constructor
  · rintro ⟨B', live', hB', hw', hp⟩
    cases hB.symm.trans hB'
    cases hw.symm.trans hw'
    exact hp
  · exact fun hp => ⟨B, live, hB, hw, hp⟩

section

variable (hB : l.analysis.graph.blocks[l.analysis.graph.blockNumber i]? = some B)

include hB

theorem liveBefore_iff_contains
    (hw : l.walkBack (l.liveCaught E B) (range' i (B.stop - i)).reverse (liveOut E B) = .ok live) :
    l.LiveBefore E i v ↔ live.contains v :=
  exists_walk_iff (w := fun B => (range' i (B.stop - i)).reverse)
    (p := fun _ live => live.contains v) hB hw

theorem liveAfter_iff_contains
    (hw : l.walkBack (l.liveCaught E B) (range' (i + 1) (B.stop - (i + 1))).reverse
      (liveOut E B) = .ok live) :
    l.LiveAfter E i v ↔ (live ∪ l.liveCaught E B).contains v :=
  exists_walk_iff (w := fun B => (range' (i + 1) (B.stop - (i + 1))).reverse)
    (p := fun B live => (live ∪ l.liveCaught E B).contains v) hB hw

/-- Where a block ends, what is needed after it is what its successors and handlers need. -/
theorem liveAfter_last (hstop : B.stop = i + 1) :
    l.LiveAfter E i v ↔ (liveOut E B ∪ l.liveCaught E B).contains v := by
  refine liveAfter_iff_contains hB ?_
  rw [hstop, Nat.sub_self]
  rfl

end

section

include hl

theorem Fits.block_of_frame (hF : l.analysis.frameAt i = some F) :
    ∃ B, l.analysis.graph.blocks[l.analysis.graph.blockNumber i]? = some B ∧ B.start ≤ i ∧
      i < B.stop := by
  obtain ⟨instr, _, hi, _⟩ := hl.typing.step hF
  exact hl.divides.exists_block (lt_of_getElem? hi)

/-- The part of a block behind an instruction can be walked. -/
theorem Fits.walkBack_rest (E : List BitSet) (hF : l.analysis.frameAt i = some F)
    (hB : l.analysis.graph.blocks[l.analysis.graph.blockNumber i]? = some B) (hi : B.start ≤ i) :
    ∃ live, l.walkBack (l.liveCaught E B) (range' (i + 1) (B.stop - (i + 1))).reverse
      (liveOut E B) = .ok live := by
  obtain ⟨k, hk⟩ := hl.reached hF
  refine hl.walkBack_succeeds fun j hj => ?_
  rw [mem_reverse, mem_range'_1] at hj
  exact (hl.starts hB hk).2 j (by omega) (by omega)

theorem Fits.liveBefore_iff {instr : Instr} {pops pushes : Nat}
    (hF : l.analysis.frameAt i = some F) (hi : l.body[i]? = some instr)
    (he : instr.stackEffect l.unit = some (pops, pushes)) :
    l.LiveBefore E i v ↔
      instr.Needs l.locals (F.stack.length - pops) F.stack.length (l.LiveAfter E i) v := by
  obtain ⟨B, hB, h1, h2⟩ := hl.block_of_frame hF
  obtain ⟨rest, hrest⟩ := hl.walkBack_rest E hF hB h1
  obtain ⟨before, hbefore⟩ := transfer_succeeds he F.stack.length
    (rest ∪ l.liveCaught E B)
  have hwalk : l.walkBack (l.liveCaught E B) (range' i (B.stop - i)).reverse
      (liveOut E B) = .ok before := by
    rw [show B.stop - i = B.stop - (i + 1) + 1 by omega, range'_succ, reverse_cons,
      walkBack_append]
    exact ⟨rest, hrest, walkBack_cons_eq_ok.mpr ⟨instr, F, before, hi, hF, hbefore, rfl⟩⟩
  have hafter : l.LiveAfter E i = fun u => (rest ∪ l.liveCaught E B).contains u = true :=
    funext fun u => propext (liveAfter_iff_contains hB hrest)
  rw [liveBefore_iff_contains hB hwalk, hl.mem_transfer hF hi he hbefore, hafter]

/-- What is needed before the first instruction of a block is in a solution. -/
theorem Fits.needAt_of_liveBefore (hE : l.Solves E) (hF : l.analysis.frameAt i = some F)
    (hi : l.analysis.graph.IsStart i) (hv : l.LiveBefore E i v) :
    (needAt E (l.analysis.graph.blockNumber i)).contains v := by
  obtain ⟨B, hB, rfl⟩ := hi
  obtain ⟨k, hk⟩ := hl.reached hF
  obtain ⟨live, hlive, hin⟩ := hE hB hk
  exact hin v ((liveBefore_iff_contains hB hlive).mp hv)

/-- **A solution says what single instructions need.** -/
theorem Fits.table (hE : l.Solves E) : l.Table handlers (l.LiveBefore E) (l.LiveAfter E) where
  needs hF hi he := hl.liveBefore_iff hF hi he
  next := by
    intro i j F instr v hF hi hj hv
    obtain ⟨B, hB, h1, h2⟩ := hl.block_of_frame hF
    obtain ⟨rest, hrest⟩ := hl.walkBack_rest E hF hB h1
    refine ⟨B, rest, hB, hrest, BitSet.contains_union.mpr (.inl ?_)⟩
    by_cases hlast : i + 1 < B.stop
    · -- Within a block the walk goes on.
      rw [hl.divides.inner hB h1 hlast hi] at hj
      obtain rfl := mem_singleton.mp hj
      have hB' := hB
      rw [← hl.divides.number hB (by omega) hlast] at hB'
      exact (liveBefore_iff_contains hB' hrest).mp hv
    · have hstop : B.stop - (i + 1) = 0 := by omega
      rw [hstop] at hrest
      cases hrest
      obtain rfl : B.last = i := by
        unfold Block.last
        omega
      obtain ⟨_, _, hnext⟩ := hl.typing.step_at hF hi
      obtain ⟨F', hF', _⟩ := hnext j hj
      unfold liveOut
      rw [contains_entriesOf, hl.divides.succs hB hi]
      refine ⟨_, mem_eraseDups.mpr (mem_map.mpr ⟨j, hj, rfl⟩), ?_⟩
      exact hl.needAt_of_liveBefore hE hF' (hl.divides.isStart_of_last hB hi hj) hv
  caught := by
    intro i F h v hF hh hcov hv hlocal
    obtain ⟨B, hB, h1, h2⟩ := hl.block_of_frame hF
    obtain ⟨rest, hrest⟩ := hl.walkBack_rest E hF hB h1
    refine ⟨B, rest, hB, hrest, BitSet.contains_union.mpr (.inr ?_)⟩
    obtain ⟨F', hF', _⟩ := hl.typing.caught hF hh hcov
    have hneed := hl.needAt_of_liveBefore hE hF' (hl.divides.target_start h hh) hv
    obtain ⟨G, hG, _, hentry, hcovers⟩ := hl.divides.exists_guard hh
    have hnarrow := hl.narrow hF
    have hcovB : h.covers B.start = true := by
      rw [← hl.divides.covers_start hh hB h1 h2]
      exact hcov
    unfold liveCaught
    rw [BitSet.contains_below, contains_entriesOf, hl.divides.excSuccs hB]
    refine ⟨?_, _, mem_eraseDups.mpr (mem_map.mpr ⟨G, ?_, rfl⟩), ?_⟩
    · have hsize : l.locals < 2 ^ 32 := by omega
      rw [UInt32.lt_iff_toNat_lt, UInt32.toNat_ofNat_of_lt' hsize]
      exact hlocal
    · rw [mem_filter, hcovers]
      exact ⟨hG, hcovB⟩
    · rw [hentry]
      exact hneed

end

/-! ## Sites -/

/-- What is found for a site: nothing if it cannot be reached, and else what the successors and the
handlers of its block need. -/
inductive Found (l : Liveness) (E : List BitSet) (s : Nat) : Option (Nat × BitSet) → Prop
  | unreached (hF : l.analysis.frames[s]? = some none) : Found l E s none
  | reached {F : Frame} {B : Block} (hF : l.analysis.frames[s]? = some (some F))
      (hB : l.analysis.graph.blockAt s = some B) :
      Found l E s (some (s, liveOut E B ∪ l.liveCaught E B))

variable {sites : List Nat} {found : List (Nat × BitSet)}

theorem forSites_eq_ok : l.forSites sites = .ok found ↔ ∃ E, l.entries = .ok E ∧
    ∃ os, Forall₂ (l.Found E) sites os ∧ os.filterMap id = found := by
  have hsite (E s o) : (do return (← l.liveAfter E s).map fun live => (s, live) : Attempt _) =
      .ok o ↔ l.Found E s o := by
    simp only [liveAfter, bind_eq_ok, pure_eq_ok, Attempt.ofOption_eq_ok]
    constructor
    · rintro ⟨after, ⟨_ | F, hF, hafter⟩, rfl⟩
      · cases hafter
        exact .unreached hF
      · obtain ⟨B, hB, hafter⟩ := bind_eq_ok.mp hafter
        cases hafter
        exact .reached hF (Attempt.ofOption_eq_ok.mp hB)
    · rintro (hF | ⟨hF, hB⟩)
      · exact ⟨none, ⟨none, hF, rfl⟩, rfl⟩
      · exact ⟨_, ⟨_, hF, bind_eq_ok.mpr ⟨_, Attempt.ofOption_eq_ok.mpr hB, rfl⟩⟩, rfl⟩
  simp only [forSites, bind_eq_ok, mapM_eq_ok, hsite, pure_eq_ok]

include hl in
theorem Fits.forSites_found (hs : ∀ s ∈ sites, s < l.body.length) :
    ∃ E found, l.Solves E ∧ l.entries = .ok E ∧ l.forSites sites = .ok found ∧
      (∀ s set, (s, set) ∈ found → s ∈ sites ∧ (∃ F, l.analysis.frameAt s = some F) ∧
        ∃ B, l.analysis.graph.blocks[l.analysis.graph.blockNumber s]? = some B ∧
          set = liveOut E B ∪ l.liveCaught E B) ∧
      ∀ s ∈ sites, ∀ F, l.analysis.frameAt s = some F → ∃ set, (s, set) ∈ found := by
  obtain ⟨E, hE, hsolves⟩ := hl.entries_solve
  have hsite : ∀ s ∈ sites, ∃ o, l.Found E s o := by
    intro s hmem
    obtain ⟨B, hB, -, -⟩ := hl.divides.exists_block (hs s hmem)
    have hF := getElem?_eq_getElem (l := l.analysis.frames) (hl.frames.symm ▸ hs s hmem)
    cases hx : l.analysis.frames[s]? with
    | none => cases hx.symm.trans hF
    | some x =>
      cases x with
      | none => exact ⟨_, .unreached hx⟩
      | some F => exact ⟨_, .reached hx hB⟩
  choose! o ho using hsite
  have hos := forall₂_map_right_iff.mpr (forall₂_same.mpr ho)
  refine ⟨E, _, hsolves, hE, forSites_eq_ok.mpr ⟨E, hE, _, hos, rfl⟩, ?_, ?_⟩
  · intro s set hmem
    obtain ⟨_, hmem, rfl⟩ := mem_filterMap.mp hmem
    obtain ⟨t, ht, hto⟩ := mem_map.mp hmem
    cases hto ▸ ho t ht with
    | reached hF hB => exact ⟨ht, ⟨_, by rw [Analysis.frameAt, hF]; rfl⟩, _, hB, rfl⟩
  · intro s hmem F hF
    obtain ⟨x, hx, hfound⟩ := forall₂_exists_mem hos hmem
    cases hfound with
    | unreached h =>
      rw [Analysis.frameAt, h] at hF
      cases hF
    | reached _ _ => exact ⟨_, mem_filterMap.mpr ⟨_, hx, rfl⟩⟩

include hl in
/-- **The live positions of sites.** Every site that can be reached gets the positions that are
needed after it. -/
theorem Fits.forSites_table (hs : ∀ s ∈ sites, s < l.body.length ∧ (s : Int) ∈ splits) :
    ∃ E found, l.Solves E ∧ l.entries = .ok E ∧ l.forSites sites = .ok found ∧
      (∀ s set, (s, set) ∈ found → s ∈ sites ∧ (∃ F, l.analysis.frameAt s = some F) ∧
        ∀ v, set.contains v ↔ l.LiveAfter E s v) ∧
      ∀ s ∈ sites, ∀ F, l.analysis.frameAt s = some F → ∃ set, (s, set) ∈ found := by
  obtain ⟨E, found, hsolves, hE, hfound, hsets, hall⟩ := hl.forSites_found fun s h => (hs s h).1
  refine ⟨E, found, hsolves, hE, hfound, fun s set hset => ?_, hall⟩
  obtain ⟨hmem, hF, B, hB, rfl⟩ := hsets s set hset
  obtain ⟨C, hC, h1, h2⟩ := hl.divides.exists_block (hs s hmem).1
  rw [hB] at hC
  cases hC
  have hstop := hl.divides.split (hs s hmem).2 hB h1 h2
  exact ⟨hmem, hF, fun v => (liveAfter_last hB hstop).symm⟩

theorem inReach_entries (h : l.entries = .ok E) : InReach E :=
  settle_induction InReach
    (fun _ _ _ _ _ hE _ hlive => inReach_learn hE (liveIn_inReach hE hlive)) inReach_unknown h

theorem inReach_forSites (h : l.forSites sites = .ok found) {s : Nat} {set : BitSet}
    (hs : (s, set) ∈ found) : set.InReach := by
  obtain ⟨E, hE, os, hos, rfl⟩ := forSites_eq_ok.mp h
  obtain ⟨o, ho, rfl⟩ := mem_filterMap.mp hs
  obtain ⟨k, hk⟩ := mem_iff_getElem?.mp ho
  obtain ⟨t, _, hfound⟩ := forall₂_getElem? hos hk
  have hreach := inReach_entries hE
  cases hfound with
  | reached _ _ => exact (inReach_entriesOf hreach _).union ((inReach_entriesOf hreach _).below _)

/-- The sites that live positions are found for are those that can be reached. -/
theorem forSites_reached (h : l.forSites sites = .ok found) :
    found.map Prod.fst = sites.filter fun s => (l.analysis.frameAt s).isSome := by
  obtain ⟨E, -, os, hos, rfl⟩ := forSites_eq_ok.mp h
  clear h
  induction hos with
  | nil => rfl
  | cons hfound _ ih =>
    cases hfound with
    | unreached hF =>
      rw [filter_cons_of_neg (by simp [Analysis.frameAt, hF]), ← ih]
      rfl
    | reached hF _ =>
      rw [filter_cons_of_pos (by simp [Analysis.frameAt, hF]), ← ih]
      rfl

end Liveness

end Resumable
