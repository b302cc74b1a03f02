import Mathlib.Data.List.Basic
import Resumable.Flow.Graph
import Resumable.Proofs.Attempt

/-!
# What a control-flow graph says about a body

`Graph.Divides` collects what later proofs use of a graph: its blocks follow each other and cover
the body, control enters them at the front and leaves them at the back, and a handler covers a block
entirely or not at all. `Graph.divides_of_build` says that the graphs that `Graph.build` makes are
such.
-/

namespace Resumable

open List

namespace Graph

variable {is : List Instr} {handlers : List Handler} {splits : List Int} {g : Graph} {B : Block}
  {h : Handler} {b i s : Nat} {G : Guard}

/-! ## Checks -/

theorem checkInstr_eq_ok {n : Nat} {i : Instr} {pc : Nat} :
    checkInstr n i pc = .ok () ↔
      (∀ t ∈ i.targets, t.toNat < n) ∧ (i.fallsThrough → pc + 1 ≠ n) := by
  unfold checkInstr
  cases hf : i.targets.find? (fun t => n ≤ t.toNat) with
  | some t =>
    have hmem := mem_of_find?_eq_some hf
    have ht : n ≤ t.toNat := by simpa using find?_some hf
    constructor
    · intro h
      cases h
    · rintro ⟨h, _⟩
      exact absurd (h t hmem) (Nat.not_lt.mpr ht)
  | none =>
    have hall : ∀ t ∈ i.targets, t.toNat < n := by
      simpa using hf
    rw [and_iff_right hall]
    cases i.fallsThrough <;> simp

theorem checkHandler_eq_ok {n : Nat} {k : Nat} :
    checkHandler n h k = .ok () ↔
      h.start.toNat < h.stop.toNat ∧ h.stop.toNat ≤ n ∧ h.target.toNat < n := by
  have hle : h.stop ≤ h.start ↔ h.stop.toNat ≤ h.start.toNat := UInt32.le_iff_toNat_le
  unfold checkHandler
  split
  next hc =>
    simp only [Bool.or_eq_true, decide_eq_true_eq, hle] at hc
    constructor
    · intro h
      cases h
    · rintro ⟨_, _, _⟩
      omega
  next hc =>
    simp only [Bool.or_eq_true, decide_eq_true_eq, hle, not_or] at hc
    split
    · constructor
      · intro h
        cases h
      · rintro ⟨_, _, _⟩
        omega
    · split
      · constructor
        · intro h
          cases h
        · rintro ⟨_, _, _⟩
          omega
      · simp only [true_iff]
        omega

theorem check_eq_ok :
    check is handlers splits = .ok () ↔
      is ≠ [] ∧
      (∀ pc i, is[pc]? = some i →
        (∀ t ∈ i.targets, t.toNat < is.length) ∧ (i.fallsThrough → pc + 1 ≠ is.length)) ∧
      (∀ h ∈ handlers,
        h.start.toNat < h.stop.toNat ∧ h.stop.toNat ≤ is.length ∧ h.target.toNat < is.length) ∧
      ∀ s ∈ splits, 0 ≤ s + 1 ∧ s + 1 ≤ is.length := by
  have hsplit : splits.forM (checkSplit is.length) = .ok () ↔
      ∀ s ∈ splits, 0 ≤ s + 1 ∧ s + 1 ≤ is.length := by
    rw [forM_eq_ok]
    refine forall₂_congr fun s _ => ?_
    unfold checkSplit
    split
    next hc =>
      simp only [Bool.or_eq_true, decide_eq_true_eq] at hc
      constructor
      · intro h
        cases h
      · rintro ⟨_, _⟩
        omega
    next hc =>
      simp only [Bool.or_eq_true, decide_eq_true_eq] at hc
      simp only [true_iff]
      omega
  have hinstr : (is.zipIdx.forM fun q => checkInstr is.length q.1 q.2) = .ok () ↔
      ∀ pc i, is[pc]? = some i →
        (∀ t ∈ i.targets, t.toNat < is.length) ∧ (i.fallsThrough → pc + 1 ≠ is.length) := by
    rw [forM_eq_ok]
    constructor
    · intro h pc i hi
      exact checkInstr_eq_ok.mp (h (i, pc) (mk_mem_zipIdx_iff_getElem?.mpr hi))
    · rintro h ⟨i, pc⟩ hi
      exact checkInstr_eq_ok.mpr (h pc i (mk_mem_zipIdx_iff_getElem?.mp hi))
  have hhandler : (handlers.zipIdx.forM fun q => checkHandler is.length q.1 q.2) = .ok () ↔
      ∀ h ∈ handlers,
        h.start.toNat < h.stop.toNat ∧ h.stop.toNat ≤ is.length ∧ h.target.toNat < is.length := by
    rw [forM_eq_ok]
    constructor
    · intro hall h hh
      obtain ⟨k, hk⟩ := mem_iff_getElem?.mp hh
      exact checkHandler_eq_ok.mp (hall (h, k) (mk_mem_zipIdx_iff_getElem?.mpr hk))
    · rintro hall ⟨h, k⟩ hh
      have hk : handlers[k]? = some h := mk_mem_zipIdx_iff_getElem?.mp hh
      exact checkHandler_eq_ok.mpr (hall h (mem_of_getElem? hk))
  rw [← hsplit, ← hinstr, ← hhandler]
  unfold check
  cases is with
  | nil => simp [throw, throwThe, MonadExceptOf.throw, bind, Except.bind]
  | cons i is =>
    simp only [isEmpty_cons, Bool.false_eq_true, if_false, bind_eq_ok, ne_eq, reduceCtorEq,
      not_false_eq_true, true_and]
    constructor
    · rintro ⟨_, h1, _, h2, h3⟩
      exact ⟨h1, h2, h3⟩
    · rintro ⟨h1, h2, h3⟩
      exact ⟨(), h1, (), h2, h3⟩

theorem build_eq_ok {name : Text} :
    build name is handlers splits = .ok g ↔
      check is handlers splits = .ok () ∧ g = assemble is handlers splits := by
  unfold build
  cases check is handlers splits with
  | error e => simp [Attempt.fail]
  | ok u => simp [eq_comm]

/-! ## Cuts -/

/-- In a row of numbers that rise, those up to `i` come first. -/
theorem lt_length_filter_le {row : List Nat} (hrow : row.Pairwise (· < ·)) :
    b < (row.filter (· ≤ i)).length ↔ ∃ s, row[b]? = some s ∧ s ≤ i := by
  induction row generalizing b with
  | nil => simp
  | cons a row ih =>
    obtain ⟨ha, hrow⟩ := pairwise_cons.mp hrow
    by_cases hai : a ≤ i
    · rw [filter_cons_of_pos (by simpa using hai)]
      cases b with
      | zero => simp [hai]
      | succ b => simpa using ih hrow
    · have hall : row.filter (fun s => decide (s ≤ i)) = [] := by
        rw [filter_eq_nil_iff]
        intro s hs
        have := ha s hs
        simp only [decide_eq_true_eq]
        omega
      rw [filter_cons_of_neg (by simpa using hai), hall]
      simp only [length_nil, Nat.not_lt_zero, false_iff]
      rintro ⟨s, hs, hsi⟩
      cases b with
      | zero =>
        cases hs
        exact hai hsi
      | succ b =>
        have := ha s (mem_of_getElem? hs)
        omega

/-- The block of `i` starts at or before `i`, and the next one after it. -/
theorem blockIn_eq_iff {row : List Nat} (hrow : row.Pairwise (· < ·)) (h0 : ∃ s ∈ row, s ≤ i) :
    blockIn row i = b ↔
      (∃ s, row[b]? = some s ∧ s ≤ i) ∧ ∀ s, row[b + 1]? = some s → i < s := by
  have hpos : 0 < (row.filter (· ≤ i)).length := by
    obtain ⟨s, hs, hsi⟩ := h0
    exact length_pos_of_mem (mem_filter.mpr ⟨hs, by simpa using hsi⟩)
  have hnext : (∀ s, row[b + 1]? = some s → i < s) ↔ ¬ b + 1 < (row.filter (· ≤ i)).length := by
    rw [lt_length_filter_le hrow]
    constructor
    · rintro h ⟨s, hs, hsi⟩
      have := h s hs
      omega
    · intro h s hs
      by_contra hsi
      exact h ⟨s, hs, by omega⟩
  rw [hnext, ← lt_length_filter_le hrow]
  unfold blockIn
  omega

theorem pairwise_starts (n : Nat) (cuts : List Nat) : (starts n cuts).Pairwise (· < ·) :=
  Pairwise.filter _ pairwise_lt_range

theorem mem_starts {n s : Nat} {cuts : List Nat} : s ∈ starts n cuts ↔ s < n ∧ s ∈ cuts := by
  simp [starts]

theorem mem_cuts :
    s ∈ cuts is handlers splits ↔
      s = 0 ∨ (∃ i ∈ is, ∃ t ∈ i.targets, t.toNat = s) ∨
      (∃ pc i, is[pc]? = some i ∧ i.endsBlock ∧ pc + 1 = s) ∨
      (∃ h ∈ handlers, s = h.start.toNat ∨ s = h.stop.toNat ∨ s = h.target.toNat) ∨
      ∃ k ∈ splits, (k + 1).toNat = s := by
  have hends : (∃ a b, ((a, b) ∈ is.zipIdx ∧ a.endsBlock = true) ∧ b + 1 = s) ↔
      ∃ pc i, is[pc]? = some i ∧ i.endsBlock ∧ pc + 1 = s := by
    constructor
    · rintro ⟨i, pc, ⟨hm, he⟩, hs⟩
      exact ⟨pc, i, mk_mem_zipIdx_iff_getElem?.mp hm, he, hs⟩
    · rintro ⟨pc, i, hm, he, hs⟩
      exact ⟨i, pc, ⟨mk_mem_zipIdx_iff_getElem?.mpr hm, he⟩, hs⟩
  unfold cuts
  simp only [cons_append, mem_cons, mem_append, mem_flatMap, mem_map,
    mem_filter, Prod.exists, hends, not_mem_nil, or_false, or_assoc]

/-! ## Blocks -/

/-- A block starts at instruction `i`. -/
def IsStart (g : Graph) (i : Nat) : Prop :=
  ∃ B, g.blocks[g.blockNumber i]? = some B ∧ B.start = i

/-- Entry `k` of the handler table, with its range in the blocks of a graph. -/
def guardOf (g : Graph) (h : Handler) (k : Nat) : Guard :=
  { cls := h.cls, index := k, start := h.start.toNat, stop := h.stop.toNat
    first := g.blockNumber h.start.toNat
    last := g.blockNumber (h.stop.toNat - 1)
    entry := g.blockNumber h.target.toNat
    region := h.region, kind := h.kind }

/-- A graph of a body with these handlers, cut after the instructions `splits`. -/
structure Divides (g : Graph) (is : List Instr) (handlers : List Handler) (splits : List Int) :
    Prop where
  nexts_lt : ∀ {i : Nat} {instr : Instr}, is[i]? = some instr → ∀ j ∈ nexts instr i, j < is.length
  handler_lt : ∀ h ∈ handlers,
    h.start.toNat < h.stop.toNat ∧ h.stop.toNat ≤ is.length ∧ h.target.toNat < is.length
  /-- The first block starts with the body. -/
  first : ∃ B, g.blocks[0]? = some B ∧ B.start = 0
  within : ∀ {b : Nat} {B : Block}, g.blocks[b]? = some B → B.id = b ∧ B.start < B.stop ∧ B.stop ≤ is.length
  /-- Every block starts where the one before it stops, and the last one stops with the body. -/
  adjacent : ∀ {b : Nat} {B : Block}, g.blocks[b]? = some B →
    (∃ B', g.blocks[b + 1]? = some B' ∧ B'.start = B.stop) ∨
      (g.blocks.length = b + 1 ∧ B.stop = is.length)
  number : ∀ {b i : Nat} {B : Block}, g.blocks[b]? = some B → B.start ≤ i → i < B.stop → g.blockNumber i = b
  exists_block : ∀ {i : Nat}, i < is.length →
    ∃ B, g.blocks[g.blockNumber i]? = some B ∧ B.start ≤ i ∧ i < B.stop
  /-- Control only goes on to the start of a block, except within a block. -/
  next_start : ∀ {i : Nat} {instr : Instr}, is[i]? = some instr → instr.endsBlock →
    ∀ j ∈ nexts instr i, g.IsStart j
  /-- Within a block control goes on with the next instruction. -/
  inner : ∀ {b i : Nat} {B : Block} {instr : Instr}, g.blocks[b]? = some B → B.start ≤ i → i + 1 < B.stop →
    is[i]? = some instr → nexts instr i = [i + 1]
  succs : ∀ {b : Nat} {B : Block} {instr : Instr}, g.blocks[b]? = some B → is[B.last]? = some instr →
    B.succs = ((nexts instr B.last).map g.blockNumber).eraseDups
  target_start : ∀ h ∈ handlers, g.IsStart h.target.toNat
  /-- A handler covers all instructions of a block or none. -/
  uniform : ∀ h ∈ handlers, ∀ {b i : Nat} {B : Block}, g.blocks[b]? = some B → B.start ≤ i → i < B.stop →
    (h.start.toNat ≤ i ∧ i < h.stop.toNat ↔
      h.start.toNat ≤ B.start ∧ B.start < h.stop.toNat)
  guards : g.guards = handlers.zipIdx.map fun (h, k) => g.guardOf h k
  excSuccs : ∀ {b : Nat} {B : Block}, g.blocks[b]? = some B →
    B.excSuccs = ((g.guards.filter (·.covers B.start)).map Guard.entry).eraseDups
  /-- A block stops after every instruction that a cut was asked for. -/
  split : ∀ {i : Nat}, (i : Int) ∈ splits → ∀ {b : Nat} {B : Block}, g.blocks[b]? = some B → B.start ≤ i →
    i < B.stop → B.stop = i + 1

section

variable (is handlers splits)

/-- The starts of the blocks that a body is cut into. -/
def row : List Nat := starts is.length (cuts is handlers splits)

end

theorem blocks_assemble :
    (assemble is handlers splits).blocks[b]? = some B ↔
      ∃ start stop, (row is handlers splits)[b]? = some start ∧
        ((row is handlers splits).tail ++ [is.length])[b]? = some stop ∧
        B = block is (row is handlers splits) (assemble is handlers splits).guards b start stop := by
  show (((_ : List (Nat × Nat)).zipIdx.map _)[b]? = some B) ↔ _
  rw [getElem?_map, getElem?_zipIdx]
  simp only [Option.map_map, Option.map_eq_some_iff, Function.comp_apply, Nat.zero_add,
    getElem?_zip_eq_some, Prod.exists]
  constructor
  · rintro ⟨start, stop, ⟨h1, h2⟩, rfl⟩
    exact ⟨start, stop, h1, h2, rfl⟩
  · rintro ⟨start, stop, h1, h2, rfl⟩
    exact ⟨start, stop, ⟨h1, h2⟩, rfl⟩

/-- A block ends where the next one starts, or with the body. -/
theorem stop_cases {row : List Nat} {n b start stop : Nat} (hb : row[b]? = some start)
    (hs : (row.tail ++ [n])[b]? = some stop) :
    row[b + 1]? = some stop ∨ (row.length = b + 1 ∧ stop = n) := by
  have hlt : b < row.length := lt_of_getElem? hb
  by_cases hlast : b + 1 < row.length
  · left
    rw [getElem?_append_left (by simp; omega), getElem?_tail] at hs
    exact hs
  · right
    have hlen : row.length = b + 1 := by omega
    rw [getElem?_append_right (by simp; omega)] at hs
    simp only [length_tail, hlen, Nat.add_sub_cancel, Nat.sub_self] at hs
    exact ⟨hlen, (Option.some.inj hs).symm⟩

theorem blockNumber_assemble (hi : i < is.length) :
    (assemble is handlers splits).blockNumber i = blockIn (row is handlers splits) i := by
  show ((range is.length).map (blockIn (row is handlers splits))).getD i 0 = _
  simp [getD, hi]

theorem pairwise_row : (row is handlers splits).Pairwise (· < ·) := pairwise_starts _ _

theorem zero_mem_row (hne : is ≠ []) : 0 ∈ row is handlers splits :=
  mem_starts.mpr ⟨length_pos_of_ne_nil hne, mem_cuts.mpr (Or.inl rfl)⟩

theorem bounds_assemble (hb : (assemble is handlers splits).blocks[b]? = some B) :
    (row is handlers splits)[b]? = some B.start ∧
      ((row is handlers splits)[b + 1]? = some B.stop ∨
        ((row is handlers splits).length = b + 1 ∧ B.stop = is.length)) := by
  obtain ⟨start, stop, h1, h2, rfl⟩ := blocks_assemble.mp hb
  exact ⟨h1, stop_cases h1 h2⟩

theorem exists_block_assemble {b start : Nat} (hb : (row is handlers splits)[b]? = some start) :
    ∃ B, (assemble is handlers splits).blocks[b]? = some B ∧ B.start = start := by
  have hlt := lt_of_getElem? hb
  have hlen : b < ((row is handlers splits).tail ++ [is.length]).length := by
    simp
    omega
  exact ⟨_, blocks_assemble.mpr ⟨start, _, hb, getElem?_eq_getElem hlen, rfl⟩, rfl⟩

/-- A row that rises has its members in order. -/
theorem row_lt {b c s t : Nat} (hb : (row is handlers splits)[b]? = some s)
    (hc : (row is handlers splits)[c]? = some t) (hbc : b < c) : s < t := by
  obtain ⟨hb', rfl⟩ := List.getElem?_eq_some_iff.mp hb
  obtain ⟨hc', rfl⟩ := List.getElem?_eq_some_iff.mp hc
  exact pairwise_iff_getElem.mp pairwise_row b c hb' hc' hbc

theorem zero_first_row (hne : is ≠ []) : (row is handlers splits)[0]? = some 0 := by
  have hmem : 0 ∈ row is handlers splits := zero_mem_row hne
  obtain ⟨b, hb⟩ := mem_iff_getElem?.mp hmem
  cases b with
  | zero => exact hb
  | succ b =>
    have hlt := lt_of_getElem? hb
    have := row_lt (getElem?_eq_getElem (Nat.lt_of_succ_lt hlt)) hb (Nat.lt_succ_self b)
    omega

theorem start_lt_stop (hb : (assemble is handlers splits).blocks[b]? = some B) :
    B.start < B.stop ∧ B.stop ≤ is.length := by
  obtain ⟨h1, h2 | ⟨_, h2⟩⟩ := bounds_assemble hb
  · have hstop : B.stop < is.length := (mem_starts.mp (mem_of_getElem? h2)).1
    exact ⟨row_lt h1 h2 (Nat.lt_succ_self b), Nat.le_of_lt hstop⟩
  · have hstart : B.start < is.length := (mem_starts.mp (mem_of_getElem? h1)).1
    omega

theorem number_assemble (hb : (assemble is handlers splits).blocks[b]? = some B) (hi : B.start ≤ i)
    (hi' : i < B.stop) : (assemble is handlers splits).blockNumber i = b := by
  obtain ⟨h1, h2⟩ := bounds_assemble hb
  have hlt := start_lt_stop hb
  rw [blockNumber_assemble (by omega)]
  refine (blockIn_eq_iff pairwise_row ⟨B.start, mem_of_getElem? h1, hi⟩).mpr ?_
  refine ⟨⟨B.start, h1, hi⟩, fun s hs => ?_⟩
  rcases h2 with h2 | ⟨h2, _⟩
  · rw [h2] at hs
    cases hs
    exact hi'
  · have := lt_of_getElem? hs
    omega

theorem isStart_assemble (hs : s ∈ row is handlers splits) :
    (assemble is handlers splits).IsStart s := by
  obtain ⟨b, hb⟩ := mem_iff_getElem?.mp hs
  obtain ⟨B, hB, rfl⟩ := exists_block_assemble hb
  have hlt := start_lt_stop hB
  exact ⟨B, by rw [number_assemble hB (Nat.le_refl _) hlt.1]; exact hB, rfl⟩

/-- No cut is made within a block. -/
theorem stop_le_of_cut (hb : (assemble is handlers splits).blocks[b]? = some B)
    (hs : s ∈ cuts is handlers splits) (hlt : B.start < s) : B.stop ≤ s := by
  obtain ⟨h1, h2⟩ := bounds_assemble hb
  by_cases hn : s < is.length
  · obtain ⟨c, hc⟩ := mem_iff_getElem?.mp
      (show s ∈ row is handlers splits from mem_starts.mpr ⟨hn, hs⟩)
    have hbc : b < c := by
      by_contra hle
      rcases Nat.lt_or_eq_of_le (Nat.not_lt.mp hle) with hcb | rfl
      · have := row_lt hc h1 hcb
        omega
      · rw [h1] at hc
        cases hc
        omega
    rcases h2 with h2 | ⟨h2, _⟩
    · by_cases heq : c = b + 1
      · rw [heq, h2] at hc
        cases hc
        exact Nat.le_refl _
      · exact Nat.le_of_lt (row_lt h2 hc (by omega))
    · have := lt_of_getElem? hc
      omega
  · have := (start_lt_stop hb).2
    omega

theorem exists_block_of_lt (hne : is ≠ []) (hi : i < is.length) :
    ∃ B, (assemble is handlers splits).blocks[(assemble is handlers splits).blockNumber i]? = some B ∧
      B.start ≤ i ∧ i < B.stop := by
  have h0 : ∃ s ∈ row is handlers splits, s ≤ i := ⟨0, zero_mem_row hne, Nat.zero_le i⟩
  rw [blockNumber_assemble hi]
  obtain ⟨⟨s, hs, hsi⟩, hnext⟩ := (blockIn_eq_iff pairwise_row h0).mp rfl
  obtain ⟨B, hB, rfl⟩ := exists_block_assemble hs
  refine ⟨B, hB, hsi, ?_⟩
  rcases (bounds_assemble hB).2 with h2 | ⟨_, h2⟩
  · exact hnext _ h2
  · omega

theorem adjacent_assemble (hb : (assemble is handlers splits).blocks[b]? = some B) :
    (∃ B', (assemble is handlers splits).blocks[b + 1]? = some B' ∧ B'.start = B.stop) ∨
      ((assemble is handlers splits).blocks.length = b + 1 ∧ B.stop = is.length) := by
  rcases (bounds_assemble hb).2 with h2 | ⟨h1, h2⟩
  · exact Or.inl (exists_block_assemble h2)
  · refine Or.inr ⟨?_, h2⟩
    have hlast : (assemble is handlers splits).blocks[b + 1]? = none := by
      cases hn : (assemble is handlers splits).blocks[b + 1]? with
      | none => rfl
      | some B' =>
        have := (List.getElem?_eq_some_iff.mp (bounds_assemble hn).1).1
        omega
    have h3 := List.getElem?_eq_none_iff.mp hlast
    have h4 := lt_of_getElem? hb
    omega

/-- Instructions within a block do not end one, so they go on with the next instruction. -/
theorem nexts_of_not_endsBlock {instr : Instr} (h : instr.endsBlock = false) :
    nexts instr i = [i + 1] := by
  unfold Instr.endsBlock at h
  cases instr <;> first | rfl | cases h

theorem mem_cuts_of_endsBlock {instr : Instr} (hi : is[i]? = some instr)
    (he : instr.endsBlock) : i + 1 ∈ cuts is handlers splits :=
  mem_cuts.mpr (Or.inr (Or.inr (Or.inl ⟨i, instr, hi, he, rfl⟩)))

theorem mem_cuts_of_handler (hh : h ∈ handlers)
    (hs : s = h.start.toNat ∨ s = h.stop.toNat ∨ s = h.target.toNat) :
    s ∈ cuts is handlers splits :=
  mem_cuts.mpr (Or.inr (Or.inr (Or.inr (Or.inl ⟨h, hh, hs⟩))))

/-- Where an instruction that ends a block goes on, a cut is made. -/
theorem mem_cuts_of_next {i j : Nat} {instr : Instr} (hi : is[i]? = some instr)
    (he : instr.endsBlock) (hj : j ∈ nexts instr i) : j ∈ cuts is handlers splits := by
  rcases mem_append.mp hj with hj | hj
  · split at hj
    · obtain rfl := mem_singleton.mp hj
      exact mem_cuts_of_endsBlock hi he
    · cases hj
  · obtain ⟨t, ht, rfl⟩ := mem_map.mp hj
    exact mem_cuts.mpr (Or.inr (Or.inl ⟨instr, mem_of_getElem? hi, t, ht, rfl⟩))

theorem nexts_lt_of_check (hc : check is handlers splits = .ok ()) {instr : Instr}
    (hi : is[i]? = some instr) : ∀ j ∈ nexts instr i, j < is.length := by
  intro j hj
  obtain ⟨ht, hf⟩ := (check_eq_ok.mp hc).2.1 i instr hi
  have hlt := lt_of_getElem? hi
  rcases mem_append.mp hj with hj | hj
  · split at hj
    next hft =>
      have := hf hft
      obtain rfl := mem_singleton.mp hj
      omega
    next => cases hj
  · obtain ⟨t, htm, rfl⟩ := mem_map.mp hj
    exact ht t htm

theorem succs_assemble (hc : check is handlers splits = .ok ())
    {instr : Instr} (hb : (assemble is handlers splits).blocks[b]? = some B)
    (hi : is[B.last]? = some instr) :
    B.succs = ((nexts instr B.last).map (assemble is handlers splits).blockNumber).eraseDups := by
  obtain ⟨start, stop, _, _, rfl⟩ := blocks_assemble.mp hb
  have hi' : is[stop - 1]? = some instr := hi
  have hmap : (nexts instr (stop - 1)).map (assemble is handlers splits).blockNumber =
      (nexts instr (stop - 1)).map (blockIn (row is handlers splits)) :=
    map_congr_left fun j hj => blockNumber_assemble (nexts_lt_of_check hc hi' j hj)
  show _ = ((nexts instr (stop - 1)).map (assemble is handlers splits).blockNumber).eraseDups
  rw [hmap]
  dsimp only [block]
  rw [hi']

theorem guards_assemble (hc : check is handlers splits = .ok ()) :
    (assemble is handlers splits).guards =
      handlers.zipIdx.map fun (h, k) => (assemble is handlers splits).guardOf h k := by
  show handlers.zipIdx.map (fun (h, k) => guard (row is handlers splits) h k) = _
  refine map_congr_left fun ⟨h, k⟩ hhk => ?_
  have hk : handlers[k]? = some h := mk_mem_zipIdx_iff_getElem?.mp hhk
  obtain ⟨h1, h2, h3⟩ := (check_eq_ok.mp hc).2.2.1 h (mem_of_getElem? hk)
  simp only [guard, guardOf]
  rw [blockNumber_assemble (by omega), blockNumber_assemble (by omega), blockNumber_assemble h3]

theorem uniform_assemble (hh : h ∈ handlers)
    (hb : (assemble is handlers splits).blocks[b]? = some B) (hi : B.start ≤ i)
    (hi' : i < B.stop) :
    h.start.toNat ≤ i ∧ i < h.stop.toNat ↔ h.start.toNat ≤ B.start ∧ B.start < h.stop.toNat := by
  have hcut := fun s hs => stop_le_of_cut (s := s) hb (mem_cuts_of_handler hh hs)
  have h1 := hcut h.start.toNat (Or.inl rfl)
  have h2 := hcut h.stop.toNat (Or.inr (Or.inl rfl))
  omega

/-- The graphs that are built divide the body. -/
theorem divides_of_build {name : Text} (hg : build name is handlers splits = .ok g) :
    g.Divides is handlers splits := by
  obtain ⟨hc, rfl⟩ := build_eq_ok.mp hg
  obtain ⟨hne, _, hhandler, hsplit⟩ := check_eq_ok.mp hc
  have hcut : ∀ s, s < is.length → s ∈ cuts is handlers splits →
      (assemble is handlers splits).IsStart s :=
    fun s hs hm => isStart_assemble (mem_starts.mpr ⟨hs, hm⟩)
  exact
    { nexts_lt := nexts_lt_of_check hc
      handler_lt := hhandler
      first := exists_block_assemble (zero_first_row hne)
      within := fun hb => ⟨by obtain ⟨_, _, _, _, rfl⟩ := blocks_assemble.mp hb; rfl,
        start_lt_stop hb⟩
      adjacent := adjacent_assemble
      number := number_assemble
      exists_block := exists_block_of_lt hne
      next_start := fun hi he j hj =>
        hcut j (nexts_lt_of_check hc hi j hj) (mem_cuts_of_next hi he hj)
      inner := by
        intro b i B instr hb hi hi' hinstr
        cases he : instr.endsBlock with
        | false => exact nexts_of_not_endsBlock he
        | true =>
          have := stop_le_of_cut hb (mem_cuts_of_endsBlock hinstr he) (by omega)
          omega
      succs := succs_assemble hc
      target_start := fun h hh =>
        hcut _ (hhandler h hh).2.2 (mem_cuts_of_handler hh (Or.inr (Or.inr rfl)))
      uniform := fun h hh => uniform_assemble hh
      guards := guards_assemble hc
      excSuccs := by
        intro b B hb
        obtain ⟨_, _, _, _, rfl⟩ := blocks_assemble.mp hb
        rfl
      split := by
        intro i hi b B hb h1 h2
        have hm : i + 1 ∈ cuts is handlers splits :=
          mem_cuts.mpr (Or.inr (Or.inr (Or.inr (Or.inr ⟨i, hi, by omega⟩))))
        have := stop_le_of_cut hb hm (by omega)
        omega }

/-! ## Guards and handlers -/

theorem covers_guardOf {k i : Nat} :
    (g.guardOf h k).covers i = h.covers i := rfl

theorem Divides.mem_guards (hd : g.Divides is handlers splits)
    (hG : G ∈ g.guards) : ∃ h ∈ handlers, G.cls = h.cls ∧
      G.entry = g.blockNumber h.target.toNat ∧ ∀ i, G.covers i = h.covers i := by
  rw [hd.guards] at hG
  obtain ⟨⟨h, k⟩, hm, rfl⟩ := mem_map.mp hG
  have hk : handlers[k]? = some h := mk_mem_zipIdx_iff_getElem?.mp hm
  exact ⟨h, mem_of_getElem? hk, rfl, rfl, fun _ => covers_guardOf⟩

theorem Divides.exists_guard (hd : g.Divides is handlers splits) (hh : h ∈ handlers) :
    ∃ G ∈ g.guards, G.cls = h.cls ∧ G.entry = g.blockNumber h.target.toNat ∧
      ∀ i, G.covers i = h.covers i := by
  obtain ⟨k, hk⟩ := mem_iff_getElem?.mp hh
  refine ⟨g.guardOf h k, ?_, rfl, rfl, fun _ => covers_guardOf⟩
  rw [hd.guards]
  exact mem_map.mpr ⟨(h, k), mk_mem_zipIdx_iff_getElem?.mpr hk, rfl⟩

/-! ## Numbers of blocks -/

theorem Divides.blockNumber_lt (hd : g.Divides is handlers splits) (hi : i < is.length) :
    g.blockNumber i < g.blocks.length := by
  obtain ⟨B, hB, _⟩ := hd.exists_block hi
  exact lt_of_getElem? hB

theorem Divides.entry_lt (hd : g.Divides is handlers splits) (hG : G ∈ g.guards) :
    G.entry < g.blocks.length := by
  obtain ⟨h, hh, _, hentry, _⟩ := hd.mem_guards hG
  rw [hentry]
  exact hd.blockNumber_lt (hd.handler_lt h hh).2.2

theorem Divides.excSuccs_lt (hd : g.Divides is handlers splits)
    (hB : g.blocks[b]? = some B) : ∀ c ∈ B.excSuccs, c < g.blocks.length := by
  intro c hc
  rw [hd.excSuccs hB, mem_eraseDups, mem_map] at hc
  obtain ⟨G, hG, rfl⟩ := hc
  exact hd.entry_lt (mem_filter.mp hG).1

theorem Divides.succs_lt (hd : g.Divides is handlers splits)
    (hB : g.blocks[b]? = some B) : ∀ c ∈ B.succs, c < g.blocks.length := by
  have hwithin := hd.within hB
  obtain ⟨instr, hi⟩ : ∃ instr, is[B.last]? = some instr :=
    ⟨_, getElem?_eq_getElem (show B.stop - 1 < is.length by omega)⟩
  intro c hc
  rw [hd.succs hB hi, mem_eraseDups, mem_map] at hc
  obtain ⟨j, hj, rfl⟩ := hc
  exact hd.blockNumber_lt (hd.nexts_lt hi j hj)

/-- Where a block ends, control goes on to the start of a block. -/
theorem Divides.isStart_of_last (hd : g.Divides is handlers splits) {b j : Nat} {instr : Instr}
    (hB : g.blocks[b]? = some B) (hi : is[B.last]? = some instr)
    (hj : j ∈ nexts instr B.last) : g.IsStart j := by
  cases he : instr.endsBlock with
  | true => exact hd.next_start hi he j hj
  | false =>
    have hlt := (hd.within hB).2.1
    have hjl := hd.nexts_lt hi j hj
    rw [nexts_of_not_endsBlock he] at hj
    obtain rfl := mem_singleton.mp hj
    have hstop : B.last + 1 = B.stop := by
      unfold Block.last
      omega
    rw [hstop] at hjl ⊢
    rcases hd.adjacent hB with ⟨B', hB', hstart⟩ | ⟨_, hend⟩
    · have hB'' := hd.within hB'
      refine ⟨B', ?_, hstart⟩
      rw [hd.number hB' (by omega) (by omega)]
      exact hB'
    · omega

/-! ## The order of blocks -/

/-- Every block but the first starts where another one stops. -/
theorem Divides.exists_before (hd : g.Divides is handlers splits)
    (hB : g.blocks[b + 1]? = some B) : ∃ A, g.blocks[b]? = some A ∧ B.start = A.stop := by
  have hlt := lt_of_getElem? hB
  obtain ⟨A, hA⟩ : ∃ A, g.blocks[b]? = some A := ⟨_, getElem?_eq_getElem (by omega)⟩
  rcases hd.adjacent hA with ⟨B', hB', hstart⟩ | ⟨hlen, -⟩
  · rw [hB] at hB'
    cases hB'
    exact ⟨A, hA, hstart⟩
  · omega

/-- The last block stops with the body. -/
theorem Divides.exists_last (hd : g.Divides is handlers splits) :
    ∃ b B, g.blocks.length = b + 1 ∧ g.blocks[b]? = some B ∧ B.stop = is.length := by
  obtain ⟨_, h0, -⟩ := hd.first
  have hpos := lt_of_getElem? h0
  obtain ⟨b, hb⟩ := Nat.exists_eq_succ_of_ne_zero (Nat.ne_of_gt hpos)
  obtain ⟨B, hB⟩ : ∃ B, g.blocks[b]? = some B := ⟨_, getElem?_eq_getElem (by omega)⟩
  rcases hd.adjacent hB with ⟨C, hC, -⟩ | ⟨hlen, hstop⟩
  · have := lt_of_getElem? hC
    omega
  · exact ⟨b, B, hlen, hB, hstop⟩

section

variable (hd : g.Divides is handlers splits) {b c i : Nat} {B C : Block}
  (hB : g.blocks[b]? = some B)

include hd hB

theorem Divides.stop_le (hC : g.blocks[c]? = some C) (h : b < c) : B.stop ≤ C.start := by
  obtain ⟨m, rfl⟩ := Nat.exists_eq_add_of_lt h
  induction m generalizing C with
  | zero =>
    rcases hd.adjacent hB with ⟨C', hC', hstart⟩ | ⟨hlen, _⟩
    · rw [hC'] at hC
      cases hC
      exact Nat.le_of_eq hstart.symm
    · have := lt_of_getElem? hC
      omega
  | succ m ih =>
    obtain ⟨D, hD, hstart⟩ := hd.exists_before hC
    have hBD := ih hD (by omega)
    have := (hd.within hD).2.1
    omega

theorem Divides.start_le_iff (hi : i < is.length) : B.start ≤ i ↔ b ≤ g.blockNumber i := by
  obtain ⟨C, hC, h1, h2⟩ := hd.exists_block hi
  have hlt := (hd.within hB).2.1
  constructor
  · intro h
    by_contra hlt'
    have := hd.stop_le hC hB (by omega)
    omega
  · intro h
    rcases Nat.lt_or_eq_of_le h with h | rfl
    · have := hd.stop_le hB hC h
      omega
    · rw [hB] at hC
      cases hC
      exact h1

theorem Divides.lt_stop_iff (hi : i < is.length) : i < B.stop ↔ g.blockNumber i ≤ b := by
  obtain ⟨C, hC, h1, h2⟩ := hd.exists_block hi
  have hlt := (hd.within hB).2.1
  constructor
  · intro h
    by_contra hlt'
    have := hd.stop_le hB hC (by omega)
    omega
  · intro h
    rcases Nat.lt_or_eq_of_le h with h | h
    · have := hd.stop_le hC hB h
      omega
    · rw [h, hB] at hC
      cases hC
      exact h2

end

/-- A handler that covers an instruction covers the first one of its block. -/
theorem Divides.covers_start (hd : g.Divides is handlers splits) (hh : h ∈ handlers)
    (hB : g.blocks[b]? = some B) (h1 : B.start ≤ i) (h2 : i < B.stop) :
    h.covers i = h.covers B.start := by
  have := hd.uniform h hh hB h1 h2
  unfold Handler.covers
  rw [Bool.eq_iff_iff]
  simpa using this

/-- The entry of a handler that covers part of a block is behind the block. -/
theorem Divides.mem_excSuccs (hd : g.Divides is handlers splits)
    (hB : g.blocks[b]? = some B) (h1 : B.start ≤ i) (h2 : i < B.stop)
    (hG : G ∈ g.guards) (hcov : G.covers i) : G.entry ∈ B.excSuccs := by
  obtain ⟨h, hh, -, -, hcovers⟩ := hd.mem_guards hG
  have hstart : G.covers B.start = true := by
    rw [hcovers, ← hd.covers_start hh hB h1 h2, ← hcovers]
    exact hcov
  rw [hd.excSuccs hB, mem_eraseDups]
  exact mem_map.mpr ⟨G, mem_filter.mpr ⟨hG, hstart⟩, rfl⟩

/-- A handler covers the instructions of the blocks from its first to its last one. -/
theorem Divides.covers_iff (hd : g.Divides is handlers splits) (hh : h ∈ handlers)
    (hi : i < is.length) :
    h.covers i ↔ g.blockNumber h.start.toNat ≤ g.blockNumber i ∧
      g.blockNumber i ≤ g.blockNumber (h.stop.toNat - 1) := by
  obtain ⟨h1, h2, _⟩ := hd.handler_lt h hh
  obtain ⟨F, hF, hF1, hF2⟩ := hd.exists_block (show h.start.toNat < is.length by omega)
  obtain ⟨L, hL, hL1, hL2⟩ := hd.exists_block (show h.stop.toNat - 1 < is.length by omega)
  have hfirst := (hd.uniform h hh hF hF1 hF2).mp ⟨Nat.le_refl _, h1⟩
  have hlast := (hd.uniform h hh hL hL1 hL2).mp (by omega)
  have hlt := (hd.within hL).2.1
  have hend := (hd.uniform h hh hL (show L.start ≤ L.stop - 1 by omega) (by omega)).mpr hlast
  rw [← hd.start_le_iff hF hi, ← hd.lt_stop_iff hL hi]
  unfold Handler.covers
  rw [Bool.and_eq_true, decide_eq_true_eq, decide_eq_true_eq]
  omega

end Graph

end Resumable
