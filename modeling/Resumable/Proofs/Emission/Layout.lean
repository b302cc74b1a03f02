import Resumable.Emission.Machine
import Resumable.Proofs.Emission.Fragment
import Resumable.Proofs.Flow.Graph

/-!
# Where emitted code stands

Both functions of a state machine hold copies of blocks, followed by code that captures what is
live. `Emission.offset` says where the copy of an instruction stands: behind the copies of all
included instructions before it. Since blocks keep their order, ranges of instructions become
ranges of code, and a handler covers the copy of an instruction if and only if it covered the
instruction.
-/

namespace Resumable

open List Subject

variable {pc : Nat} {hs : List Handler} {h : Handler}

open Fragment

/-- A row of instructions stands at a place in a body. -/
def Sits (is : List Instr) (pc : Nat) (row : List Instr) : Prop :=
  ∀ ⦃k i⦄, row[k]? = some i → is[pc + k]? = some i

theorem sits_append_iff {is row row' : List Instr} :
    Sits is pc (row ++ row') ↔ Sits is pc row ∧ Sits is (pc + row.length) row' := by
  constructor
  · intro h
    refine ⟨fun k i hk => h ?_, fun k i hk => ?_⟩
    · rw [getElem?_append_left (lt_of_getElem? hk)]
      exact hk
    · rw [Nat.add_assoc]
      refine h ?_
      rw [getElem?_append_right (Nat.le_add_right _ _), Nat.add_sub_cancel_left]
      exact hk
  · rintro ⟨h, h'⟩ k i hk
    by_cases hlt : k < row.length
    · rw [getElem?_append_left hlt] at hk
      exact h hk
    · rw [getElem?_append_right (by omega)] at hk
      have := h' hk
      rwa [Nat.add_assoc, show row.length + (k - row.length) = k by omega] at this

theorem sits_cons_iff {is row : List Instr} {i : Instr} :
    Sits is pc (i :: row) ↔ is[pc]? = some i ∧ Sits is (pc + 1) row := by
  rw [show i :: row = [i] ++ row from rfl, sits_append_iff]
  refine and_congr_left' ⟨fun h => h (k := 0) rfl, fun h k j hk => ?_⟩
  cases k with
  | zero =>
    cases hk
    exact h
  | succ k => simp at hk

/-- A part of some code stands behind what comes before it. -/
theorem sits_of_eq {is row : List Instr} {pre part post : List (Labelled Place)}
    {address : Place → UInt32} (his : is = (pre ++ (part ++ post)).map (Labelled.toInstr address))
    (hrow : row = part.map (Labelled.toInstr address)) (hpc : pc = pre.length) : Sits is pc row := by
  subst his hrow hpc
  intro k i hk
  have hlt := lt_of_getElem? hk
  rw [length_map] at hlt
  rw [getElem?_map] at hk ⊢
  rw [getElem?_append_right (Nat.le_add_right _ _), Nat.add_sub_cancel_left,
    getElem?_append_left hlt]
  exact hk

theorem Handler.covers_iff :
    h.covers pc ↔ h.start.toNat ≤ pc ∧ pc < h.stop.toNat := by
  unfold covers
  rw [Bool.and_eq_true, decide_eq_true_eq, decide_eq_true_eq]

/-- The classes and the targets of the handlers that cover an instruction, in order. -/
def handlersAt (hs : List Handler) (pc : Nat) : List (Text × Nat) :=
  (hs.filter (·.covers pc)).map fun h => (h.cls, h.target.toNat)

/-- What a handler does about what it covers. -/
structure Cover where
  cls : Text
  target : Nat
  region : UInt32
  kind : UInt8
deriving DecidableEq, Repr

def Handler.cover (h : Handler) : Cover := ⟨h.cls, h.target.toNat, h.region, h.kind⟩

/-- The cover in code where instruction `i` has its copy at `pos i`. -/
def Cover.move (pos : Nat → Nat) (c : Cover) : Cover := { c with target := pos c.target }

/-- What the handlers do that cover an instruction, in order. -/
def coversAt (hs : List Handler) (pc : Nat) : List Cover :=
  (hs.filter (·.covers pc)).map Handler.cover

theorem handlersAt_eq_map :
    handlersAt hs pc = (coversAt hs pc).map fun c => (c.cls, c.target) := by
  unfold handlersAt coversAt
  rw [map_map]
  rfl

theorem handlersAt_move {hs hs' : List Handler} {pc pc' : Nat} (pos : Nat → Nat)
    (h : coversAt hs' pc' = (coversAt hs pc).map (Cover.move pos)) :
    handlersAt hs' pc' = (handlersAt hs pc).map fun p => (p.1, pos p.2) := by
  rw [handlersAt_eq_map, handlersAt_eq_map, h, map_map, map_map]
  rfl

theorem handlersAt_of_coversAt (h : coversAt hs pc = []) :
    handlersAt hs pc = [] := by
  rw [handlersAt_eq_map, h, map_nil]

theorem coversAt_cons :
    coversAt (h :: hs) pc = (if h.covers pc then [h.cover] else []) ++ coversAt hs pc := by
  unfold coversAt
  rw [filter_cons]
  split <;> rfl

theorem coversAt_append {hs hs' : List Handler} :
    coversAt (hs ++ hs') pc = coversAt hs pc ++ coversAt hs' pc := by
  unfold coversAt
  rw [filter_append, map_append]

theorem coversAt_singleton :
    coversAt [h] pc = if h.start.toNat ≤ pc ∧ pc < h.stop.toNat then [h.cover] else [] := by
  rw [coversAt_cons]
  simp only [Handler.covers_iff]
  exact append_nil _

/-- Handlers that cover nothing can be left out. -/
theorem coversAt_filter :
    coversAt (hs.filter fun h => h.start < h.stop) pc = coversAt hs pc := by
  unfold coversAt
  rw [filter_filter]
  congr 1
  refine filter_congr fun h _ => ?_
  have hlt : h.covers pc = true → h.start < h.stop := by
    rw [UInt32.lt_iff_toNat_lt, Handler.covers_iff]
    omega
  cases hcov : h.covers pc with
  | false => rfl
  | true => simpa using hlt hcov

theorem Instr.retarget_congr {x : Instr} {f g : UInt32 → UInt32}
    (h : ∀ t ∈ x.targets, f t = g t) : x.retarget f = x.retarget g := by
  cases x with
  | goto t => exact congrArg Instr.goto (h t mem_cons_self)
  | branch test t => exact congrArg (Instr.branch test) (h t mem_cons_self)
  | switch low ts d =>
    have hts : ts.map f = ts.map g :=
      map_congr_left fun t ht => h t (mem_append_left _ ht)
    show Instr.switch low (ts.map f) (f d) = Instr.switch low (ts.map g) (g d)
    rw [hts, h d (mem_append_right _ mem_cons_self)]
  | _ => rfl

namespace Emission

variable {e : Emission} {included : List Nat} {handlers : List Handler} {splits : List Int}
  {b i pc k : Nat} {B : Block} {l : Place} {is : List Instr}

/-- The blocks of the function that code is emitted for. -/
abbrev graph (e : Emission) : Graph := e.plan.analysis.graph

/-! ## Copies of instructions -/

/-- The instructions before a place that are copied, in order. -/
def kept (e : Emission) (included : List Nat) (upto : Nat) : List Nat :=
  (List.range upto).filter fun i => e.plan.analysis.graph.blockNumber i ∈ included

/-- The copy of an instruction. -/
def copied (e : Emission) (i : Nat) : List (Labelled Place) := codes (e.copyInstr i)

/-- The size of all copies before that of an instruction. -/
def offset (e : Emission) (included : List Nat) (i : Nat) : Nat :=
  ((e.kept included i).flatMap e.copied).length

theorem kept_succ :
    e.kept included (i + 1) = e.kept included i ++
      if e.graph.blockNumber i ∈ included then [i] else [] := by
  unfold kept
  rw [range_succ, filter_append]
  split <;> simp_all

theorem offset_succ (hi : e.graph.blockNumber i ∈ included) :
    e.offset included (i + 1) = e.offset included i + (e.copied i).length := by
  unfold offset
  rw [kept_succ, if_pos hi]
  simp

variable (e included) in
theorem exists_kept_append {j : Nat} (h : i ≤ j) :
    ∃ rest, e.kept included j = e.kept included i ++ rest := by
  obtain ⟨m, rfl⟩ := Nat.exists_eq_add_of_le h
  induction m with
  | zero => exact ⟨[], (append_nil _).symm⟩
  | succ m ih =>
    obtain ⟨rest, hrest⟩ := ih (Nat.le_add_right i m)
    rw [← Nat.add_assoc, kept_succ, hrest, append_assoc]
    exact ⟨_, rfl⟩

variable (e included) in
theorem offset_mono {j : Nat} (h : i ≤ j) : e.offset included i ≤ e.offset included j := by
  obtain ⟨rest, hrest⟩ := exists_kept_append e included h
  unfold offset
  rw [hrest, flatMap_append, length_append]
  exact Nat.le_add_right _ _

theorem labels_relabel {x : Instr} : (e.relabel x).labels = x.targets.map e.target := by
  cases x with
  | switch low ts d =>
    show ts.map e.target ++ [e.target d] = (ts ++ [d]).map e.target
    rw [map_append, map_singleton]
  | _ => rfl

theorem toInstr_relabel {x : Instr} {address : Place → UInt32} :
    (e.relabel x).toInstr address = x.retarget fun t => address (e.target t) := by
  cases x with
  | switch low ts d =>
    show Instr.switch low ((ts.map e.target).map address) _ = _
    rw [map_map]
    rfl
  | _ => rfl

section

variable (hd : e.graph.Divides e.body handlers splits)

include hd in
theorem kept_block (hB : e.graph.blocks[b]? = some B) :
    e.kept included B.stop = e.kept included B.start ++
      if b ∈ included then members B else [] := by
  obtain ⟨_, hlt, _⟩ := hd.within hB
  have hsplit : range B.stop = range B.start ++ members B := by
    unfold members
    rw [range_eq_range', range_eq_range',
      show B.stop = B.start + (B.stop - B.start) by omega, ← range'_append_1]
    simp
  have hnumber : ∀ i ∈ members B, e.graph.blockNumber i = b := by
    intro i hi
    unfold members at hi
    rw [mem_range'_1] at hi
    exact hd.number hB hi.1 (by omega)
  unfold kept
  rw [hsplit, filter_append]
  congr 1
  split
  next h => exact filter_eq_self.mpr fun i hi => by simp [hnumber i hi, h]
  next h => exact filter_eq_nil_iff.mpr fun i hi => by simp [hnumber i hi, h]

/-- The copy of a block, if it is included. -/
def copyIf (e : Emission) (included : List Nat) (B : Block) : List (Item Place) :=
  if B.id ∈ included then e.copyBlock B else []

theorem copyBlocks_eq :
    e.copyBlocks included = e.graph.blocks.flatMap (e.copyIf included) := by
  unfold copyBlocks copyIf
  induction e.graph.blocks with
  | nil => rfl
  | cons B row ih =>
    rw [flatMap_cons, ← ih, filter_cons]
    split <;> simp_all

theorem codes_copyBlock : codes (e.copyBlock B) = (members B).flatMap e.copied := by
  unfold copyBlock
  rw [cons_append, codes_mark, codes_append, codes_flatMap]
  exact append_nil _

include hd in
variable (included) in
/-- The copies of the first blocks are the copies of the instructions before the next one. -/
theorem codes_take (hB : e.graph.blocks[b]? = some B) :
    codes ((e.graph.blocks.take b).flatMap (e.copyIf included)) =
        (e.kept included B.start).flatMap e.copied ∧
      codes ((e.graph.blocks.take (b + 1)).flatMap (e.copyIf included)) =
        (e.kept included B.stop).flatMap e.copied := by
  have hstep : ∀ {b B}, e.graph.blocks[b]? = some B →
      codes ((e.graph.blocks.take b).flatMap (e.copyIf included)) =
        (e.kept included B.start).flatMap e.copied →
      codes ((e.graph.blocks.take (b + 1)).flatMap (e.copyIf included)) =
        (e.kept included B.stop).flatMap e.copied := by
    intro b B hB h
    have hcopy : codes (e.copyIf included B) =
        (if b ∈ included then members B else []).flatMap e.copied := by
      unfold copyIf
      rw [(hd.within hB).1]
      split
      · exact codes_copyBlock
      · rfl
    rw [take_add_one, hB, flatMap_append, codes_append, h, kept_block hd hB,
      flatMap_append, ← hcopy]
    simp
  suffices h : codes ((e.graph.blocks.take b).flatMap (e.copyIf included)) =
      (e.kept included B.start).flatMap e.copied from ⟨h, hstep hB h⟩
  induction b generalizing B with
  | zero =>
    obtain ⟨B', hB', hstart⟩ := hd.first
    rw [hB] at hB'
    cases hB'
    rw [hstart]
    rfl
  | succ b ih =>
    obtain ⟨B', hB', hstart⟩ := hd.exists_before hB
    rw [hstep hB' (ih hB'), hstart]

include hd in
theorem codes_copyBlocks :
    codes (e.copyBlocks included) = (e.kept included e.body.length).flatMap e.copied := by
  obtain ⟨m, B, hm, hB, hstop⟩ := hd.exists_last
  have htake := (codes_take included hd hB).2
  rwa [← hm, take_length, ← copyBlocks_eq, hstop] at htake

include hd in
/-- The copy of an instruction stands behind those of the instructions before it. -/
theorem exists_codes_append (hi : e.graph.blockNumber i ∈ included)
    (hlt : i < e.body.length) :
    ∃ pre post, codes (e.copyBlocks included) = pre ++ (e.copied i ++ post) ∧
      pre.length = e.offset included i := by
  obtain ⟨rest, hrest⟩ := exists_kept_append e included (Nat.succ_le_of_lt hlt)
  refine ⟨(e.kept included i).flatMap e.copied, rest.flatMap e.copied, ?_, rfl⟩
  rw [codes_copyBlocks hd, hrest, kept_succ, if_pos hi]
  simp

theorem marksFrom_copyInstr : marksFrom pc (e.copyInstr i) = [] := by
  have hplain : ∀ (is : List Instr) (pc : Nat), marksFrom pc (plain is) = [] := by
    intro is
    induction is with
    | nil => exact fun _ => rfl
    | cons i is ih => exact fun pc => ih (pc + 1)
  unfold copyInstr
  split
  · unfold fastPath
    rw [marksFrom_append, marksFrom_append, hplain, hplain]
    rfl
  · cases e.body[i]? <;> rfl

theorem marksFrom_copyBlock :
    marksFrom pc (e.copyBlock B) =
      [(.blockStart B.id, pc), (.blockStop B.id, pc + (codes (e.copyBlock B)).length)] := by
  have hinner : marksFrom pc ((members B).flatMap e.copyInstr) = [] := by
    rw [eq_nil_iff_forall_not_mem]
    rintro ⟨l, k⟩ hk
    obtain ⟨j, i, _, hk⟩ := mem_marksFrom_flatMap.mp hk
    rw [marksFrom_copyInstr] at hk
    cases hk
  unfold copyBlock
  rw [cons_append, marksFrom, marksFrom_append, hinner, codes_mark, codes_append]
  simp [marksFrom]

include hd in
/-- Copied blocks start and stop where the copies of their instructions do. -/
theorem mem_marks_copyBlocks :
    (l, k) ∈ marksFrom pc (e.copyBlocks included) ↔
      ∃ b B, e.graph.blocks[b]? = some B ∧ b ∈ included ∧
        (l = .blockStart b ∧ k = pc + e.offset included B.start ∨
          l = .blockStop b ∧ k = pc + e.offset included B.stop) := by
  rw [copyBlocks_eq, mem_marksFrom_flatMap]
  refine exists_congr fun b => exists_congr fun B => and_congr_right fun hB => ?_
  obtain ⟨hstart, hstop⟩ := codes_take included hd hB
  have hid := (hd.within hB).1
  rw [take_add_one, hB, flatMap_append, codes_append] at hstop
  unfold offset
  rw [← hstart, ← hstop, length_append]
  unfold copyIf
  rw [hid]
  split
  next h => simp [marksFrom_copyBlock, hid, h, Nat.add_assoc]
  next h => simp [marksFrom, h]

end

/-! ## Fragments with copied blocks -/

@[simp] theorem codes_plain : codes (plain is) = is.map .plain := by
  induction is with
  | nil => rfl
  | cons i is ih =>
    show codes (.code (.plain i) :: plain is) = _
    rw [codes_code, ih, map_cons]

@[simp] theorem marksFrom_plain : marksFrom pc (plain is) = [] := by
  induction is generalizing pc with
  | nil => rfl
  | cons i is ih => exact ih

@[simp] theorem toInstr_map_plain {address : Place → UInt32} :
    (is.map Labelled.plain).map (Labelled.toInstr address) = is := by
  rw [map_map]
  exact map_id is

/-- The code of a point, with the address of the code that captures what is live there. -/
def fastCode (e : Emission) (s : Stop) (slow : UInt32) : List Instr :=
  [.dup, .invoke e.isDone, .branch .zero slow, .invoke e.join] ++ s.adapt

/-- The code that captures what is live at a point. -/
def slowCode (e : Emission) (machine : Option UInt32) (s : Stop) : List Instr :=
  [.store e.scratch] ++
    (List.range s.point.depth).reverse.map (fun k => .store (e.spill k)) ++
    [machine.elim .null .load, .load e.scratch] ++
    s.point.live.map (fun pos => .load (e.captured pos)) ++
    [.newrec s.layout, .iconst (Int64.ofNat s.point.id), .sconst e.continuationName,
     .invoke e.suspend] ++
    (if e.function.result.className = ClassName.future then [] else [.checkcast e.resultClass]) ++
    [.retval]

theorem slowPath_eq {machine : Option UInt32} {s : Stop} :
    e.slowPath machine s = .mark (.slow s.number) :: plain (e.slowCode machine s) := rfl

/-- A fragment that holds copies of the included blocks between a first part and the code that
captures what is live at some stops. -/
structure Arranged (e : Emission) (included : List Nat) (machine : Option UInt32)
    (pre : List (Item Place)) (rest : List Stop) (extra : List (LabelledHandler Place))
    (frag : Fragment Place) : Prop where
  items : frag.items = pre ++ (e.copyBlocks included ++ rest.flatMap (e.slowPath machine))
  handlers : ∃ guards, e.copyGuards included = .ok guards ∧ frag.handlers = guards ++ extra
  pre_marks : ∀ {l k}, (l, k) ∈ marksFrom 0 pre →
    ∀ b, l ≠ .blockStart b ∧ l ≠ .blockStop b ∧ l ≠ .slow b
  numbers : (rest.map Stop.number).Nodup

/-- The blocks that a handler covers once only some blocks are copied. -/
theorem copyGuard_cases {G : Guard} {o : Option (LabelledHandler Place)}
    (h : e.copyGuard included G = .ok o) :
    (o = none ∧ ∀ b ∈ included, ¬(G.first ≤ b ∧ b ≤ G.last)) ∨
    ∃ first last, o = some (handlerOver G (.blockStart first) (.blockStop last)) ∧
      first ∈ included ∧ last ∈ included ∧ G.entry ∈ included ∧
      G.first ≤ first ∧ first ≤ G.last ∧ last ≤ G.last ∧
      ∀ b ∈ included, G.first ≤ b → b ≤ G.last → first ≤ b ∧ b ≤ last := by
  unfold copyGuard at h
  dsimp only at h
  generalize hrange : (range' G.first (G.last + 1 - G.first)).filter (· ∈ included) = range at h
  have hmem : ∀ b, b ∈ range ↔ b ∈ included ∧ G.first ≤ b ∧ b ≤ G.last := by
    intro b
    rw [← hrange, mem_filter, mem_range'_1, decide_eq_true_eq, and_comm]
    exact and_congr_right fun _ => by omega
  have hsorted : range.Pairwise (· < ·) := by
    rw [← hrange]
    exact (pairwise_lt_range' 1).filter _
  split at h
  next first last hfirst hlast =>
    split at h
    next hentry =>
      cases h
      obtain ⟨ys, hys⟩ := head?_eq_some_iff.mp hfirst
      obtain ⟨zs, hzs⟩ := getLast?_eq_some_iff.mp hlast
      have hf := (hmem first).mp (by rw [hys]; exact mem_cons_self)
      have hl := (hmem last).mp (by rw [hzs]; simp)
      refine .inr ⟨first, last, rfl, hf.1, hl.1, hentry, hf.2.1, hf.2.2, hl.2.2, fun b hb h1 h2 => ?_⟩
      have hb' := (hmem b).mpr ⟨hb, h1, h2⟩
      constructor
      · rw [hys, pairwise_cons] at hsorted
        rw [hys, mem_cons] at hb'
        rcases hb' with rfl | hb'
        · exact Nat.le_refl _
        · exact Nat.le_of_lt (hsorted.1 b hb')
      · rw [hzs, pairwise_append] at hsorted
        rw [hzs, mem_append, mem_singleton] at hb'
        rcases hb' with hb' | rfl
        · exact Nat.le_of_lt (hsorted.2.2 b hb' last mem_cons_self)
        · exact Nat.le_refl _
    next => cases h
  next hnone =>
    cases h
    refine .inl ⟨rfl, fun b hb hr => ?_⟩
    have hb' := (hmem b).mpr ⟨hb, hr⟩
    cases hcase : range with
    | nil =>
      rw [hcase] at hb'
      cases hb'
    | cons x xs =>
      refine hnone x ((x :: xs).getLast (cons_ne_nil x xs)) ?_ ?_
      · rw [hcase]
        rfl
      · rw [hcase]
        exact getLast?_eq_some_getLast (cons_ne_nil x xs)

section

variable {machine : Option UInt32} {pre : List (Item Place)} {rest : List Stop}
  {extra : List (LabelledHandler Place)} {frag : Fragment Place}
  (ha : e.Arranged included machine pre rest extra frag)
  (hd : e.graph.Divides e.body handlers splits)

include ha hd

/-- The marks of a fragment: those of its first part, of blocks and of the code that captures. -/
theorem Arranged.mem_marks :
    (l, k) ∈ marksFrom 0 frag.items ↔ (l, k) ∈ marksFrom 0 pre ∨
      (∃ b B, e.graph.blocks[b]? = some B ∧ b ∈ included ∧
        (l = .blockStart b ∧ k = (codes pre).length + e.offset included B.start ∨
          l = .blockStop b ∧ k = (codes pre).length + e.offset included B.stop)) ∨
      ∃ j s, rest[j]? = some s ∧ l = .slow s.number ∧
        k = (codes pre).length + (codes (e.copyBlocks included)).length +
          (codes ((rest.take j).flatMap (e.slowPath machine))).length := by
  have hslow : ∀ {pc s}, (l, k) ∈ marksFrom pc (e.slowPath machine s) ↔
      l = .slow s.number ∧ k = pc := by
    intro pc s
    rw [slowPath_eq, marksFrom, marksFrom_plain, mem_singleton, Prod.mk.injEq]
  rw [ha.items, marksFrom_append, marksFrom_append, mem_append, mem_append, Nat.zero_add,
    mem_marks_copyBlocks hd, mem_marksFrom_flatMap]
  simp only [hslow]

theorem Arranged.address_blockStart (hB : e.graph.blocks[b]? = some B)
    (hb : b ∈ included) :
    frag.address (.blockStart b) =
      UInt32.ofNat ((codes pre).length + e.offset included B.start) := by
  refine address_of_mem ((ha.mem_marks hd).mpr (.inr (.inl ⟨b, B, hB, hb, .inl ⟨rfl, rfl⟩⟩))) ?_
  intro k hk
  rcases (ha.mem_marks hd).mp hk with hk | ⟨b', B', hB', _, ⟨h, rfl⟩ | ⟨h, _⟩⟩ | ⟨_, _, _, h, _⟩
  · exact absurd rfl (ha.pre_marks hk b).1
  · cases h
    rw [hB] at hB'
    cases hB'
    rfl
  · cases h
  · cases h

theorem Arranged.address_blockStop (hB : e.graph.blocks[b]? = some B)
    (hb : b ∈ included) :
    frag.address (.blockStop b) =
      UInt32.ofNat ((codes pre).length + e.offset included B.stop) := by
  refine address_of_mem ((ha.mem_marks hd).mpr (.inr (.inl ⟨b, B, hB, hb, .inr ⟨rfl, rfl⟩⟩))) ?_
  intro k hk
  rcases (ha.mem_marks hd).mp hk with hk | ⟨b', B', hB', _, ⟨h, _⟩ | ⟨h, rfl⟩⟩ | ⟨_, _, _, h, _⟩
  · exact absurd rfl (ha.pre_marks hk b).2.1
  · cases h
  · cases h
    rw [hB] at hB'
    cases hB'
    rfl
  · cases h

/-- A block whose start is marked is included. -/
theorem Arranged.included_of_marked (hm : frag.Marked (.blockStart b)) : b ∈ included := by
  obtain ⟨k, hk⟩ := marked_iff.mp hm
  rcases (ha.mem_marks hd).mp hk with hk | ⟨b', B', _, hb, ⟨h, _⟩ | ⟨h, _⟩⟩ | ⟨_, _, _, h, _⟩
  · exact absurd rfl (ha.pre_marks hk b).1
  · cases h
    exact hb
  · cases h
  · cases h

theorem Arranged.address_slow {j : Nat} {s : Stop} (hs : rest[j]? = some s) :
    frag.address (.slow s.number) = UInt32.ofNat ((codes pre).length +
      (codes (e.copyBlocks included)).length +
        (codes ((rest.take j).flatMap (e.slowPath machine))).length) := by
  refine address_of_mem ((ha.mem_marks hd).mpr (.inr (.inr ⟨j, s, hs, rfl, rfl⟩))) ?_
  intro k hk
  rcases (ha.mem_marks hd).mp hk with hk | ⟨_, _, _, _, ⟨h, _⟩ | ⟨h, _⟩⟩ | ⟨j', s', hs', h, rfl⟩
  · exact absurd rfl (ha.pre_marks hk s.number).2.2
  · cases h
  · cases h
  · have hlt := lt_of_getElem? hs
    have hnum : (rest.map Stop.number)[j]? = (rest.map Stop.number)[j']? := by
      simp only [getElem?_map, hs, hs', Option.map_some]
      exact congrArg some (Place.slow.inj h)
    obtain rfl := (getElem?_inj (by simpa using hlt) ha.numbers).mp hnum
    rfl

variable {is : List Instr} {hs : List Handler} (hfin : frag.finish = .ok (is, hs))

include hfin

/-- Everything stands within the code. -/
theorem Arranged.place_le (hi : i ≤ e.body.length) :
    (codes pre).length + e.offset included i ≤ is.length := by
  obtain ⟨⟨_, rfl⟩, _⟩ := finish_eq_ok.mp hfin
  have := offset_mono e included hi
  rw [length_map, ha.items, codes_append, codes_append, length_append,
    length_append, codes_copyBlocks hd]
  unfold offset at *
  omega

theorem Arranged.sits_copied (hi : e.graph.blockNumber i ∈ included)
    (hlt : i < e.body.length) :
    Sits is ((codes pre).length + e.offset included i)
      ((e.copied i).map (Labelled.toInstr frag.address)) := by
  obtain ⟨⟨_, rfl⟩, _⟩ := finish_eq_ok.mp hfin
  obtain ⟨before, after, hcodes, hlen⟩ := exists_codes_append hd hi hlt
  have hall : codes frag.items = (codes pre ++ before) ++
      (e.copied i ++ (after ++ codes (rest.flatMap (e.slowPath machine)))) := by
    rw [ha.items, codes_append, codes_append, hcodes]
    simp only [append_assoc]
  exact sits_of_eq (congrArg _ hall) rfl (by rw [length_append, hlen])

omit hd in
theorem Arranged.sits_slow {j : Nat} {s : Stop} (hs : rest[j]? = some s) :
    Sits is ((codes pre).length + (codes (e.copyBlocks included)).length +
      (codes ((rest.take j).flatMap (e.slowPath machine))).length) (e.slowCode machine s) := by
  obtain ⟨⟨_, rfl⟩, _⟩ := finish_eq_ok.mp hfin
  have hall : codes frag.items = (codes pre ++ codes (e.copyBlocks included) ++
      codes ((rest.take j).flatMap (e.slowPath machine))) ++
        (codes (e.slowPath machine s) ++
          codes ((rest.drop (j + 1)).flatMap (e.slowPath machine))) := by
    rw [ha.items, codes_append, codes_append, codes_flatMap_split hs]
    simp only [append_assoc]
  refine sits_of_eq (congrArg _ hall) ?_ (by simp only [length_append])
  rw [slowPath_eq, codes_mark, codes_plain, toInstr_map_plain]

/-! ## Copied handlers -/

variable (hsize : is.length < 2 ^ 32)

include hsize

theorem Arranged.toNat_blockStart (hB : e.graph.blocks[b]? = some B)
    (hb : b ∈ included) :
    (frag.address (.blockStart b)).toNat = (codes pre).length + e.offset included B.start := by
  have hle := ha.place_le hd hfin (show B.start ≤ e.body.length by
    have := hd.within hB
    omega)
  rw [ha.address_blockStart hd hB hb]
  exact UInt32.toNat_ofNat_of_lt' (show _ < 2 ^ 32 by omega)

theorem Arranged.toNat_blockStop (hB : e.graph.blocks[b]? = some B)
    (hb : b ∈ included) :
    (frag.address (.blockStop b)).toNat = (codes pre).length + e.offset included B.stop := by
  have hle := ha.place_le hd hfin (hd.within hB).2.2
  rw [ha.address_blockStop hd hB hb]
  exact UInt32.toNat_ofNat_of_lt' (show _ < 2 ^ 32 by omega)

theorem Arranged.toNat_slow {j : Nat} {s : Stop} (hj : rest[j]? = some s) :
    (frag.address (.slow s.number)).toNat = (codes pre).length +
      (codes (e.copyBlocks included)).length +
        (codes ((rest.take j).flatMap (e.slowPath machine))).length := by
  have hlt := (List.getElem?_eq_some_iff.mp (ha.sits_slow hfin hj (k := 0) rfl)).1
  rw [ha.address_slow hd hj]
  exact UInt32.toNat_ofNat_of_lt' (show _ < 2 ^ 32 by omega)

/-- What becomes of a handler at the copy of an instruction, before all copies and behind them. -/
theorem Arranged.coversAt_guard {h : Handler} {m q : Nat} {o : Option (LabelledHandler Place)}
    (hh : h ∈ handlers)
    (hg : e.copyGuard included (e.graph.guardOf h m) = .ok o) :
    (q < (codes pre).length ∨ (codes pre).length + e.offset included e.body.length ≤ q →
      coversAt (o.toList.map (LabelledHandler.toHandler frag.address)) q = []) ∧
    (e.graph.blockNumber i ∈ included → i < e.body.length →
      (codes pre).length + e.offset included i ≤ q →
      q < (codes pre).length + e.offset included (i + 1) →
      coversAt (o.toList.map (LabelledHandler.toHandler frag.address)) q =
        if h.covers i then
          [h.cover.move fun t => (codes pre).length + e.offset included t]
        else []) := by
  rcases copyGuard_cases hg with ⟨rfl, hnone⟩ | ⟨first, last, rfl, hf, hl, he, h1, h2, h3, hall⟩
  · refine ⟨fun _ => rfl, fun hi hlt _ _ => ?_⟩
    rw [if_neg]
    · rfl
    · exact fun hcov => hnone _ hi ((hd.covers_iff hh hlt).mp hcov)
  · obtain ⟨hstart, hstop, htarget⟩ := hd.handler_lt h hh
    have hblock : ∀ b ≤ e.graph.blockNumber (h.stop.toNat - 1),
        ∃ B, e.graph.blocks[b]? = some B := by
      intro b hb
      obtain ⟨L, hL, _⟩ := hd.exists_block (show h.stop.toNat - 1 < e.body.length by omega)
      have := lt_of_getElem? hL
      exact ⟨_, getElem?_eq_getElem (by omega)⟩
    obtain ⟨F, hF⟩ := hblock first h2
    obtain ⟨L, hL⟩ := hblock last h3
    obtain ⟨T, hT, hTstart⟩ := hd.target_start h hh
    have hrow : coversAt ((some (handlerOver (e.graph.guardOf h m)
        (.blockStart first) (.blockStop last))).toList.map
          (LabelledHandler.toHandler frag.address)) q =
        if (codes pre).length + e.offset included F.start ≤ q ∧
            q < (codes pre).length + e.offset included L.stop then
          [h.cover.move fun t => (codes pre).length + e.offset included t] else [] := by
      have htarget : h.cover.move (fun t => (codes pre).length + e.offset included t) =
          ⟨h.cls, (frag.address (.blockStart (e.graph.guardOf h m).entry)).toNat,
            h.region, h.kind⟩ := by
        have hplace := ha.toNat_blockStart hd hfin hsize hT he
        rw [hTstart] at hplace
        exact congrArg (fun n => (⟨h.cls, n, h.region, h.kind⟩ : Cover)) hplace.symm
      rw [← ha.toNat_blockStart hd hfin hsize hF hf, ← ha.toNat_blockStop hd hfin hsize hL hl,
        htarget]
      exact coversAt_singleton
    rw [hrow]
    constructor
    · intro hq
      have := offset_mono e included (hd.within hL).2.2
      rw [if_neg (by omega)]
    · intro hi hlt hq1 hq2
      congr 1
      rw [hd.covers_iff hh hlt, eq_iff_iff]
      -- A range of copies and the range of their instructions hold the same members.
      have hmono := fun x y => offset_mono e included (i := x) (j := y)
      have hfirst := hd.start_le_iff hF hlt
      have hlast := hd.lt_stop_iff hL hlt
      constructor
      · rintro ⟨hq3, hq4⟩
        have hs : F.start ≤ i := by
          by_contra hlt'
          have := hmono (i + 1) F.start (by omega)
          omega
        have ht : i < L.stop := by
          by_contra hlt'
          have := hmono L.stop i (by omega)
          omega
        exact ⟨Nat.le_trans h1 (hfirst.mp hs), Nat.le_trans (hlast.mp ht) h3⟩
      · rintro ⟨h4, h5⟩
        obtain ⟨h6, h7⟩ := hall _ hi h4 h5
        have := hmono F.start i (hfirst.mpr h6)
        have := hmono (i + 1) L.stop (hlast.mpr h7)
        omega

/-- The copies of a part of the handler table. -/
theorem Arranged.coversAt_guards {q : Nat} {row : List (Handler × Nat)}
    {os : List (Option (LabelledHandler Place))} (hrow : ∀ p ∈ row, p.1 ∈ handlers)
    (hos : Forall₂
      (fun p o => e.copyGuard included (e.graph.guardOf p.1 p.2) = .ok o) row os) :
    (q < (codes pre).length ∨ (codes pre).length + e.offset included e.body.length ≤ q →
      coversAt ((os.filterMap id).map (LabelledHandler.toHandler frag.address)) q = []) ∧
    (e.graph.blockNumber i ∈ included → i < e.body.length →
      (codes pre).length + e.offset included i ≤ q →
      q < (codes pre).length + e.offset included (i + 1) →
      coversAt ((os.filterMap id).map (LabelledHandler.toHandler frag.address)) q =
        (coversAt (row.map Prod.fst) i).map
          (Cover.move fun t => (codes pre).length + e.offset included t)) := by
  induction hos with
  | nil => exact ⟨fun _ => rfl, fun _ _ _ _ => rfl⟩
  | @cons p o row os hg _ ih =>
    obtain ⟨hbefore, hcopy⟩ :=
      ha.coversAt_guard (q := q) (i := i) hd hfin hsize (hrow p mem_cons_self) hg
    obtain ⟨ihbefore, ihcopy⟩ := ih fun p hp => hrow p (mem_cons_of_mem _ hp)
    have hcons : ((o :: os).filterMap id).map (LabelledHandler.toHandler frag.address) =
        o.toList.map (LabelledHandler.toHandler frag.address) ++
          (os.filterMap id).map (LabelledHandler.toHandler frag.address) := by
      rw [← map_append]
      cases o <;> rfl
    rw [hcons, coversAt_append]
    refine ⟨fun hq => by rw [hbefore hq, ihbefore hq]; rfl, fun hi hlt hq1 hq2 => ?_⟩
    rw [hcopy hi hlt hq1 hq2, ihcopy hi hlt hq1 hq2, map_cons, coversAt_cons]
    split <;> rfl

/-- **Copied handlers cover what they covered,** and lead where their targets have gone. No other
code is covered by them. -/
theorem Arranged.coversAt_split {q : Nat} :
    (q < (codes pre).length ∨ (codes pre).length + e.offset included e.body.length ≤ q →
      coversAt hs q = coversAt (extra.map (LabelledHandler.toHandler frag.address)) q) ∧
    (e.graph.blockNumber i ∈ included → i < e.body.length →
      (codes pre).length + e.offset included i ≤ q →
      q < (codes pre).length + e.offset included (i + 1) →
      coversAt hs q =
        (coversAt handlers i).map (Cover.move fun t => (codes pre).length + e.offset included t) ++
          coversAt (extra.map (LabelledHandler.toHandler frag.address)) q) := by
  obtain ⟨_, _, hhs⟩ := finish_eq_ok.mp hfin
  obtain ⟨guards, hguards, hall⟩ := ha.handlers
  obtain ⟨os, hos, hg⟩ := bind_eq_ok.mp hguards
  obtain rfl := pure_eq_ok.mp hg
  rw [mapM_eq_ok, hd.guards, forall₂_map_left_iff] at hos
  have hmem : ∀ p ∈ handlers.zipIdx, p.1 ∈ handlers := fun p hp =>
    mem_of_getElem? (mem_zipIdx_iff_getElem?.mp hp)
  obtain ⟨hbefore, hcopy⟩ := ha.coversAt_guards (q := q) (i := i) hd hfin hsize hmem hos
  rw [zipIdx_map_fst] at hcopy
  rw [← hhs, coversAt_filter, hall, map_append, coversAt_append]
  refine ⟨fun hq => by rw [hbefore hq]; rfl, fun hi hlt hq1 hq2 => ?_⟩
  rw [hcopy hi hlt hq1 hq2]

/-- The code that captures has no handlers of copied blocks. -/
theorem Arranged.coversAt_slow {j q : Nat} {s : Stop} (hj : rest[j]? = some s)
    (hq : (frag.address (.slow s.number)).toNat ≤ q) :
    coversAt hs q = coversAt (extra.map (LabelledHandler.toHandler frag.address)) q := by
  refine (ha.coversAt_split (i := 0) hd hfin hsize).1 (.inr ?_)
  rw [ha.toNat_slow hd hfin hsize hj, codes_copyBlocks hd] at hq
  unfold offset
  omega

omit hsize in
/-- A label of a copied instruction stands for the place of the copy of its target. -/
theorem Arranged.address_target {x : Instr} {t : UInt32} (hx : e.body[i]? = some x)
    (hi : e.graph.blockNumber i ∈ included)
    (hstop : e.stops.find? (·.point.instr = i) = none) (ht : t ∈ x.targets) :
    frag.address (e.target t) =
      UInt32.ofNat ((codes pre).length + e.offset included t.toNat) := by
  have hlt := lt_of_getElem? hx
  have hends : x.endsBlock := by
    unfold Instr.endsBlock
    cases x <;> first | rfl | cases ht
  obtain ⟨T, hT, hstart⟩ := hd.next_start hx hends t.toNat (mem_append_right _
    (mem_map.mpr ⟨t, ht, rfl⟩))
  have hmarked : frag.Marked (e.target t) := by
    obtain ⟨⟨hlabels, _⟩, _⟩ := finish_eq_ok.mp hfin
    refine hlabels (e.relabel x) ?_ _ ?_
    · obtain ⟨before, after, hcodes, _⟩ := exists_codes_append hd hi hlt
      have hcopied : e.copied i = [e.relabel x] := by
        unfold copied copyInstr
        rw [hstop, hx]
        rfl
      rw [ha.items, codes_append, codes_append, hcodes, hcopied]
      simp
    · rw [labels_relabel]
      exact mem_map.mpr ⟨t, ht, rfl⟩
  rw [← hstart]
  exact ha.address_blockStart hd hT (ha.included_of_marked hd hmarked)

end

/-- Code that holds copies of the included instructions. Instruction `i` has its copy at `pos i`. -/
structure Copies (e : Emission) (included : List Nat) (machine : Option UInt32) (is : List Instr)
    (hs : List Handler) (pos : Nat → Nat) : Prop where
  small : ∀ {i : Nat}, i ≤ e.body.length → pos i < 2 ^ 32
  instr : ∀ {i : Nat} {x : Instr}, e.body[i]? = some x →
    e.plan.analysis.graph.blockNumber i ∈ included →
    e.stops.find? (·.point.instr = i) = none →
    is[pos i]? = some (x.retarget fun t => UInt32.ofNat (pos t.toNat)) ∧ pos (i + 1) = pos i + 1
  stop : ∀ {i : Nat} {s : Stop}, i < e.body.length →
    e.plan.analysis.graph.blockNumber i ∈ included →
    e.stops.find? (·.point.instr = i) = some s →
    ∃ slow, Sits is (pos i) (e.fastCode s slow) ∧ Sits is slow.toNat (e.slowCode machine s) ∧
      pos (i + 1) = pos i + (e.fastCode s slow).length
  handlers : ∀ {i q : Nat}, e.plan.analysis.graph.blockNumber i ∈ included → i < e.body.length →
    pos i ≤ q → q < pos (i + 1) →
    handlersAt hs q = (handlersAt e.function.handlers i).map fun p => (p.1, pos p.2)

/-- **Fragments with copied blocks become code with copies.** -/
theorem Arranged.copies {machine : Option UInt32} {pre : List (Item Place)} {rest : List Stop}
    {extra : List (LabelledHandler Place)} {frag : Fragment Place}
    {hs : List Handler} (ha : e.Arranged included machine pre rest extra frag)
    (hd : e.graph.Divides e.body e.function.handlers splits)
    (hfin : frag.finish = .ok (is, hs)) (hsize : is.length < 2 ^ 32)
    (hrest : ∀ s ∈ e.stops, e.graph.blockNumber s.point.instr ∈ included → s ∈ rest)
    (hextra : ∀ q, (codes pre).length ≤ q →
      coversAt (extra.map (LabelledHandler.toHandler frag.address)) q = []) :
    e.Copies included machine is hs fun i => (codes pre).length + e.offset included i where
  small hi := Nat.lt_of_le_of_lt (ha.place_le hd hfin hi) hsize
  instr := by
    intro i x hx hi hstop
    have hlt := lt_of_getElem? hx
    have hcopied : e.copied i = [e.relabel x] := by
      unfold copied copyInstr
      rw [hstop, hx]
      rfl
    have hsits := ha.sits_copied hd hfin hi hlt
    rw [hcopied, map_singleton, sits_cons_iff] at hsits
    refine ⟨?_, by rw [offset_succ hi, hcopied]; rfl⟩
    rw [hsits.1, toInstr_relabel]
    exact congrArg some (Instr.retarget_congr fun t ht =>
      ha.address_target hd hfin hx hi hstop ht)
  stop := by
    intro i s hlt hi hstop
    have hcopied : (e.copied i).map (Labelled.toInstr frag.address) =
        e.fastCode s (frag.address (.slow s.number)) := by
      unfold copied copyInstr
      rw [hstop]
      dsimp only
      unfold fastPath fastCode
      rw [codes_append, codes_append, codes_plain, codes_plain, map_append, map_append,
        toInstr_map_plain, toInstr_map_plain]
      rfl
    have hmem := mem_of_find?_eq_some hstop
    have hinstr : s.point.instr = i := by simpa using find?_some hstop
    obtain ⟨j, hj⟩ := mem_iff_getElem?.mp (hrest s hmem (hinstr ▸ hi))
    refine ⟨frag.address (.slow s.number), ?_, ?_, ?_⟩
    · rw [← hcopied]
      exact ha.sits_copied hd hfin hi hlt
    · rw [ha.toNat_slow hd hfin hsize hj]
      exact ha.sits_slow hfin hj
    · rw [offset_succ hi, ← hcopied, length_map, Nat.add_assoc]
  handlers := by
    intro i q hi hlt hq1 hq2
    refine handlersAt_move (fun t => (codes pre).length + e.offset included t) ?_
    rw [(ha.coversAt_split hd hfin hsize).2 hi hlt hq1 hq2, hextra q (by omega), append_nil]

end Emission

end Resumable
