import Resumable.Proofs.Flow.Graph

/-!
# Graphs are faithful

A graph that was built says of a body what can be said without it: its blocks are the parts of the
body between the places where control can enter or leave, each edge stands for a way that control can
take behind the last instruction of a block, and the exceptional edges of a block are those of the
handlers over any of its instructions. `Graph.Faithful` puts this in terms of instructions and
handlers alone.
-/

namespace Resumable

open List

/-- Control can go on with instruction `j` after the one at `pc`. -/
inductive Instr.LeadsTo (x : Instr) (pc : Nat) : Nat → Prop
  | next (h : x.fallsThrough) : LeadsTo x pc (pc + 1)
  | jump {t : UInt32} (h : t ∈ x.targets) : LeadsTo x pc t.toNat

namespace Graph

variable {is : List Instr} {handlers : List Handler} {splits : List Int} {g : Graph}

/-- A place where a body is cut on account of a branch, a handler or the caller. -/
inductive IsCut (is : List Instr) (handlers : List Handler) (splits : List Int) : Nat → Prop
  | target {x : Instr} {t : UInt32} (hx : x ∈ is) (ht : t ∈ x.targets) : IsCut is handlers splits t.toNat
  | start {h : Handler} (hh : h ∈ handlers) : IsCut is handlers splits h.start.toNat
  | stop {h : Handler} (hh : h ∈ handlers) : IsCut is handlers splits h.stop.toNat
  | handler {h : Handler} (hh : h ∈ handlers) : IsCut is handlers splits h.target.toNat
  | split {s : Int} {i : Nat} (hs : s ∈ splits) (hi : s + 1 = i) : IsCut is handlers splits i

/-- Instruction `i` is in a block. -/
def Inside (B : Block) (i : Nat) : Prop := B.start ≤ i ∧ i < B.stop

/-- What a graph says about a body with these handlers, cut after the instructions `splits`. -/
structure Faithful (g : Graph) (is : List Instr) (handlers : List Handler) (splits : List Int) :
    Prop where
  /-- The blocks hold instructions and make up the body, one behind the other. -/
  nonempty : ∀ {b : Nat} {B : Block}, g.blocks[b]? = some B → B.id = b ∧ B.start < B.stop
  partition : g.blocks.flatMap (fun B => List.range' B.start (B.stop - B.start)) =
    List.range is.length
  blockOf : g.blockOf.length = is.length ∧
    ∀ {b i : Nat} {B : Block}, g.blocks[b]? = some B → Inside B i → g.blockOf[i]? = some b
  /-- No cut is within a block, … -/
  whole : ∀ B ∈ g.blocks, ∀ {i : Nat}, IsCut is handlers splits i → ¬ (B.start < i ∧ i < B.stop)
  /-- … only its last instruction can branch or not go on, … -/
  straight : ∀ B ∈ g.blocks, ∀ {i : Nat} {x : Instr}, B.start ≤ i → i + 1 < B.stop →
    is[i]? = some x → x.isBranch = false ∧ x.fallsThrough
  /-- … and blocks are not cut for any other reason. -/
  maximal : ∀ B ∈ g.blocks, B.start = 0 ∨ IsCut is handlers splits B.start ∨
    ∃ i x, i + 1 = B.start ∧ is[i]? = some x ∧ (x.isBranch ∨ x.fallsThrough = false)
  /-- The successors of a block are where its last instruction leads, the next block first. -/
  succs : ∀ {b : Nat} {B : Block} {x : Instr}, g.blocks[b]? = some B → is[B.last]? = some x →
    B.succs.Nodup ∧ (∀ c, c ∈ B.succs ↔ ∃ j, x.LeadsTo B.last j ∧ g.blockOf[j]? = some c) ∧
      (x.fallsThrough → B.succs.head? = some (b + 1))
  /-- A handler covers a block entirely or not at all. -/
  uniform : ∀ h ∈ handlers, ∀ B ∈ g.blocks,
    (∀ i, Inside B i → h.covers i) ∨ ∀ i, Inside B i → h.covers i = false
  /-- The exceptional successors of a block are the entries of the handlers over any of its
  instructions, … -/
  excSuccs : ∀ B ∈ g.blocks, ∀ {i : Nat}, Inside B i → B.excSuccs.Nodup ∧
    ∀ c, c ∈ B.excSuccs ↔ ∃ h ∈ handlers, h.covers i ∧ g.blockOf[h.target.toNat]? = some c
  /-- … in the order in which the table names them first. -/
  ordered : ∀ B ∈ g.blocks, ∀ {i : Nat}, Inside B i → B.excSuccs.Pairwise fun c d =>
    ∃ k h, handlers[k]? = some h ∧ h.covers i ∧ g.blockOf[h.target.toNat]? = some c ∧
      ∀ {k' : Nat} {h' : Handler}, handlers[k']? = some h' → h'.covers i →
        g.blockOf[h'.target.toNat]? = some d → k < k'
  /-- There is a guard per handler, whose first to last blocks are those that it covers. -/
  guards : g.guards.length = handlers.length ∧
    ∀ {k : Nat} {h : Handler}, handlers[k]? = some h → ∃ G, g.guards[k]? = some G ∧
      G.index = k ∧ G.cls = h.cls ∧ g.blockOf[h.target.toNat]? = some G.entry ∧
      (∀ i, G.covers i = h.covers i) ∧ G.last < g.blocks.length ∧
      ∀ {b : Nat} {B : Block}, g.blocks[b]? = some B →
        (G.first ≤ b ∧ b ≤ G.last ↔ ∀ i, Inside B i → h.covers i)

/-! ## Rows without repetition -/

/-- Values that are named more than once keep the place where they are named first. -/
theorem pairwise_eraseDups_map {α : Type} {R : α → α → Prop} {f : α → Nat} {row : List α}
    (hrow : row.Pairwise R) :
    (row.map f).eraseDups.Pairwise fun c d => ∃ x ∈ row, f x = c ∧ ∀ y ∈ row, f y = d → R x y := by
  -- Without the first value the row is shorter, but it is not its own tail.
  induction hn : row.length using Nat.strongRecOn generalizing row with
  | _ n ih =>
    cases row with
    | nil => exact .nil
    | cons x row =>
      obtain ⟨hx, hrow⟩ := pairwise_cons.mp hrow
      have hrest : (row.map f).filter (fun c => !c == f x) =
          (row.filter fun y => !f y == f x).map f := by
        rw [filter_map]
        rfl
      have hmem {c : Nat} (hc : c ∈ ((row.filter fun y => !f y == f x).map f).eraseDups) :
          c ≠ f x := by
        rw [mem_eraseDups, mem_map] at hc
        obtain ⟨y, hy, rfl⟩ := hc
        simpa using (mem_filter.mp hy).2
      rw [map_cons, eraseDups_cons, hrest, pairwise_cons]
      constructor
      · intro d hd
        refine ⟨x, mem_cons_self, rfl, fun y hy hyd => ?_⟩
        rcases mem_cons.mp hy with rfl | hy
        · exact absurd hyd.symm (hmem hd)
        · exact hx y hy
      · have hlen : (row.filter fun y => !f y == f x).length < n := by
          have := length_filter_le (fun y => !f y == f x) row
          rw [← hn, length_cons]
          omega
        refine (ih _ hlen (hrow.filter _) rfl).imp_of_mem fun {c d} _ hd hcd => ?_
        obtain ⟨y, hy, hyc, hlater⟩ := hcd
        refine ⟨y, mem_cons_of_mem _ (mem_filter.mp hy).1, hyc, fun z hz hzd => ?_⟩
        rcases mem_cons.mp hz with rfl | hz
        · exact absurd hzd.symm (hmem hd)
        · exact hlater z (mem_filter.mpr ⟨hz, by simpa [hzd] using hmem hd⟩) hzd

theorem nodup_eraseDups : ∀ row : List Nat, row.eraseDups.Nodup
  | [] => .nil
  | c :: row => by
      rw [eraseDups_cons, nodup_cons]
      refine ⟨fun hc => ?_, nodup_eraseDups _⟩
      rw [mem_eraseDups, mem_filter] at hc
      simp at hc
termination_by row => row.length
decreasing_by exact Nat.lt_succ_of_le (List.length_filter_le _ _)

/-! ## Cuts -/

theorem IsCut.mem_cuts {i : Nat} (h : IsCut is handlers splits i) : i ∈ cuts is handlers splits := by
  rw [Graph.mem_cuts]
  cases h with
  | target hx ht => exact Or.inr (Or.inl ⟨_, hx, _, ht, rfl⟩)
  | start hh => exact Or.inr (Or.inr (Or.inr (Or.inl ⟨_, hh, Or.inl rfl⟩)))
  | stop hh => exact Or.inr (Or.inr (Or.inr (Or.inl ⟨_, hh, Or.inr (Or.inl rfl)⟩)))
  | handler hh => exact Or.inr (Or.inr (Or.inr (Or.inl ⟨_, hh, Or.inr (Or.inr rfl)⟩)))
  | split hs hi => exact Or.inr (Or.inr (Or.inr (Or.inr ⟨_, hs, by omega⟩)))

/-- A body that passes the checks is cut for a branch, a handler, the caller, or behind an
instruction that ends a block. -/
theorem cases_of_mem_cuts (hc : check is handlers splits = .ok ()) {s : Nat}
    (hs : s ∈ cuts is handlers splits) : s = 0 ∨ IsCut is handlers splits s ∨
      ∃ i x, i + 1 = s ∧ is[i]? = some x ∧ (x.isBranch ∨ x.fallsThrough = false) := by
  obtain ⟨-, -, -, hsplits⟩ := check_eq_ok.mp hc
  rcases Graph.mem_cuts.mp hs with h0 | ⟨x, hx, t, ht, rfl⟩ | ⟨i, x, hx, he, rfl⟩ |
    ⟨h, hh, rfl | rfl | rfl⟩ | ⟨k, hk, rfl⟩
  · exact Or.inl h0
  · exact Or.inr (Or.inl (.target hx ht))
  · refine Or.inr (Or.inr ⟨i, x, rfl, hx, ?_⟩)
    simpa [Instr.endsBlock] using he
  · exact Or.inr (Or.inl (.start hh))
  · exact Or.inr (Or.inl (.stop hh))
  · exact Or.inr (Or.inl (.handler hh))
  · exact Or.inr (Or.inl (.split hk (Int.toNat_of_nonneg (hsplits k hk).1).symm))

/-! ## Blocks and edges -/

theorem blockOf_eq (hlen : g.blockOf.length = is.length) {i c : Nat} (hi : i < is.length) :
    g.blockOf[i]? = some c ↔ g.blockNumber i = c := by
  rw [blockNumber, getD_eq_getElem?_getD, getElem?_eq_getElem (hlen ▸ hi),
    Option.some.injEq, Option.getD_some]

theorem mem_nexts {x : Instr} {pc j : Nat} : j ∈ nexts x pc ↔ x.LeadsTo pc j := by
  unfold nexts
  rw [mem_append, mem_map]
  constructor
  · rintro (h | ⟨t, ht, rfl⟩)
    · split at h
      next hf =>
        obtain rfl := mem_singleton.mp h
        exact .next hf
      next => cases h
    · exact .jump ht
  · rintro (hf | ht)
    · exact Or.inl (by rw [if_pos hf]; exact mem_singleton_self _)
    · exact Or.inr ⟨_, ht, rfl⟩

/-- A table names its entries by rising numbers. -/
theorem pairwise_zipIdx (row : List Handler) : row.zipIdx.Pairwise fun x y => x.2 < y.2 := by
  have h := pairwise_lt_range' (s := 0) (n := row.length)
  rw [← zipIdx_map_snd, pairwise_map] at h
  exact h

section

variable (hd : g.Divides is handlers splits) {B : Block} {b : Nat}

include hd

/-- The blocks up to block `b` are made up of the instructions up to its last one. -/
theorem Divides.flatMap_take {b : Nat} {B : Block} (hB : g.blocks[b]? = some B) :
    (g.blocks.take (b + 1)).flatMap (fun B => range' B.start (B.stop - B.start)) =
      range B.stop := by
  have hbefore : (g.blocks.take b).flatMap (fun B => range' B.start (B.stop - B.start)) =
      range B.start := by
    cases b with
    | zero =>
      obtain ⟨B', hB', hstart⟩ := hd.first
      rw [hB] at hB'
      cases hB'
      rw [hstart]
      rfl
    | succ b =>
      obtain ⟨A, hA, hstart⟩ := hd.exists_before hB
      rw [hstart]
      exact Divides.flatMap_take hA
  obtain ⟨m, hm⟩ := Nat.exists_eq_add_of_le (Nat.le_of_lt (hd.within hB).2.1)
  rw [take_add_one, hB, flatMap_append, Option.toList_some, flatMap_singleton,
    hbefore, hm, Nat.add_sub_cancel_left, range_eq_range', range_eq_range']
  simpa using range'_append_1 (s := 0) (m := B.start) (n := m)

theorem Divides.partition : g.blocks.flatMap (fun B => range' B.start (B.stop - B.start)) =
    range is.length := by
  obtain ⟨b, B, hb, hB, hstop⟩ := hd.exists_last
  rw [← hstop, ← hd.flatMap_take hB, ← hb, take_length]

theorem Divides.mem_succs (hlen : g.blockOf.length = is.length) {x : Instr}
    (hB : g.blocks[b]? = some B) (hx : is[B.last]? = some x) (c : Nat) :
    c ∈ B.succs ↔ ∃ j, x.LeadsTo B.last j ∧ g.blockOf[j]? = some c := by
  rw [hd.succs hB hx, mem_eraseDups, mem_map]
  constructor
  · rintro ⟨j, hj, hc⟩
    exact ⟨j, mem_nexts.mp hj, (blockOf_eq hlen (hd.nexts_lt hx j hj)).mpr hc⟩
  · rintro ⟨j, hj, hc⟩
    have hj := mem_nexts.mpr hj
    exact ⟨j, hj, (blockOf_eq hlen (hd.nexts_lt hx j hj)).mp hc⟩

/-- A block that control falls out of is followed by the next one, and names it first. -/
theorem Divides.head_succs {x : Instr} (hB : g.blocks[b]? = some B)
    (hx : is[B.last]? = some x) (hf : x.fallsThrough) : B.succs.head? = some (b + 1) := by
  have hB' := hd.within hB
  have hlast : B.last + 1 = B.stop := Nat.sub_add_cancel (by omega)
  have hnext : nexts x B.last = B.stop :: x.targets.map UInt32.toNat := by
    rw [nexts, if_pos hf, hlast, singleton_append]
  have hlt := hd.nexts_lt hx B.stop (hnext ▸ mem_cons_self)
  have hnumber : g.blockNumber B.stop = b + 1 := by
    rcases hd.adjacent hB with ⟨C, hC, hstart⟩ | ⟨-, hend⟩
    · have hC' := hd.within hC
      exact hd.number hC (by omega) (by omega)
    · omega
  rw [hd.succs hB hx, hnext, map_cons, eraseDups_cons, hnumber, head?_cons]

/-! ## Handlers -/

theorem Divides.excSuccs_at {b i : Nat} (hB : g.blocks[b]? = some B) (hi : Inside B i) :
    B.excSuccs = ((handlers.zipIdx.filter fun (h, _) => h.covers i).map fun (h, _) =>
      g.blockNumber h.target.toNat).eraseDups := by
  have hcovers : ∀ hk ∈ handlers.zipIdx, hk.1.covers B.start = hk.1.covers i := by
    rintro ⟨h, k⟩ hk
    have hh := mem_of_getElem? (mk_mem_zipIdx_iff_getElem?.mp hk)
    exact (hd.covers_start hh hB hi.1 hi.2).symm
  rw [hd.excSuccs hB, hd.guards, filter_map, map_map, ← filter_congr hcovers]
  rfl

theorem Divides.mem_excSuccs_iff (hlen : g.blockOf.length = is.length) {b i : Nat}
    (hB : g.blocks[b]? = some B) (hi : Inside B i) (c : Nat) : c ∈ B.excSuccs ↔
      ∃ h ∈ handlers, h.covers i ∧ g.blockOf[h.target.toNat]? = some c := by
  rw [hd.excSuccs_at hB hi, mem_eraseDups, mem_map]
  constructor
  · rintro ⟨⟨h, k⟩, hk, hc⟩
    obtain ⟨hk, hcov⟩ := mem_filter.mp hk
    have hh := mem_of_getElem? (mk_mem_zipIdx_iff_getElem?.mp hk)
    exact ⟨h, hh, hcov, (blockOf_eq hlen (hd.handler_lt h hh).2.2).mpr hc⟩
  · rintro ⟨h, hh, hcov, hc⟩
    obtain ⟨k, hk⟩ := mem_iff_getElem?.mp hh
    have hk := mk_mem_zipIdx_iff_getElem?.mpr hk
    exact ⟨(h, k), mem_filter.mpr ⟨hk, hcov⟩,
      (blockOf_eq hlen (hd.handler_lt h hh).2.2).mp hc⟩

theorem Divides.ordered (hlen : g.blockOf.length = is.length) {b i : Nat}
    (hB : g.blocks[b]? = some B) (hi : Inside B i) :
    B.excSuccs.Pairwise fun c d => ∃ k h, handlers[k]? = some h ∧ h.covers i ∧
      g.blockOf[h.target.toNat]? = some c ∧
      ∀ {k' : Nat} {h' : Handler}, handlers[k']? = some h' → h'.covers i →
        g.blockOf[h'.target.toNat]? = some d → k < k' := by
  rw [hd.excSuccs_at hB hi]
  refine (pairwise_eraseDups_map ((pairwise_zipIdx handlers).filter _)).imp fun {c d} hcd => ?_
  obtain ⟨⟨h, k⟩, hk, hc, hlater⟩ := hcd
  obtain ⟨hk, hcov⟩ := mem_filter.mp hk
  have hk := mk_mem_zipIdx_iff_getElem?.mp hk
  have hlt := (hd.handler_lt h (mem_of_getElem? hk)).2.2
  refine ⟨k, h, hk, hcov, (blockOf_eq hlen hlt).mpr hc, fun {k' h'} hk' hcov' hd' => ?_⟩
  have hlt' := (hd.handler_lt h' (mem_of_getElem? hk')).2.2
  exact hlater (h', k') (mem_filter.mpr ⟨mk_mem_zipIdx_iff_getElem?.mpr hk', hcov'⟩)
    ((blockOf_eq hlen hlt').mp hd')

/-- A handler covers the blocks from its first to its last one. -/
theorem Divides.range_iff {h : Handler} (hh : h ∈ handlers) (hB : g.blocks[b]? = some B) :
    g.blockNumber h.start.toNat ≤ b ∧ b ≤ g.blockNumber (h.stop.toNat - 1) ↔
      ∀ i, Inside B i → h.covers i := by
  obtain ⟨-, hlt, hle⟩ := hd.within hB
  have hstart : g.blockNumber B.start = b := hd.number hB (Nat.le_refl _) hlt
  rw [← hstart, ← hd.covers_iff hh (by omega)]
  constructor
  · intro hcov i hi
    rw [hd.covers_start hh hB hi.1 hi.2]
    exact hcov
  · intro hall
    exact hall B.start ⟨Nat.le_refl _, hlt⟩

end

/-! ## Graphs that are built -/

/-- A graph of a body is faithful to it. -/
theorem faithful_of_build {name : Text} (hg : build name is handlers splits = .ok g) :
    g.Faithful is handlers splits := by
  have hd := divides_of_build hg
  obtain ⟨hc, rfl⟩ := build_eq_ok.mp hg
  have hlen : (assemble is handlers splits).blockOf.length = is.length := by
    simp [assemble]
  have hmem {B : Block} (hB : B ∈ (assemble is handlers splits).blocks) :=
    List.mem_iff_getElem?.mp hB
  constructor
  case nonempty =>
    intro b B hB
    exact ⟨(hd.within hB).1, (hd.within hB).2.1⟩
  case partition => exact hd.partition
  case blockOf =>
    refine ⟨hlen, fun {b i B} hB hi => ?_⟩
    have hlt : i < is.length := Nat.lt_of_lt_of_le hi.2 (hd.within hB).2.2
    exact (blockOf_eq hlen hlt).mpr (hd.number hB hi.1 hi.2)
  case whole =>
    intro B hB i hi hin
    obtain ⟨b, hB⟩ := hmem hB
    have := stop_le_of_cut hB hi.mem_cuts hin.1
    omega
  case straight =>
    intro B hB i x h1 h2 hx
    obtain ⟨b, hB⟩ := hmem hB
    have hends : x.endsBlock = false := by
      cases he : x.endsBlock with
      | false => rfl
      | true =>
        have := stop_le_of_cut hB (mem_cuts_of_endsBlock hx he) (by omega)
        omega
    simpa [Instr.endsBlock] using hends
  case maximal =>
    intro B hB
    obtain ⟨b, hB⟩ := hmem hB
    have hrow := List.mem_of_getElem? (bounds_assemble hB).1
    exact cases_of_mem_cuts hc (mem_starts.mp hrow).2
  case succs =>
    intro b B x hB hx
    refine ⟨?_, hd.mem_succs hlen hB hx, hd.head_succs hB hx⟩
    rw [hd.succs hB hx]
    exact nodup_eraseDups _
  case uniform =>
    intro h hh B hB
    obtain ⟨b, hB⟩ := hmem hB
    cases hcov : h.covers B.start with
    | true => exact Or.inl fun i hi => (hd.covers_start hh hB hi.1 hi.2).trans hcov
    | false => exact Or.inr fun i hi => (hd.covers_start hh hB hi.1 hi.2).trans hcov
  case excSuccs =>
    intro B hB i hi
    obtain ⟨b, hB⟩ := hmem hB
    refine ⟨?_, hd.mem_excSuccs_iff hlen hB hi⟩
    rw [hd.excSuccs hB]
    exact nodup_eraseDups _
  case ordered =>
    intro B hB i hi
    obtain ⟨b, hB⟩ := hmem hB
    exact hd.ordered hlen hB hi
  case guards =>
    refine ⟨by rw [hd.guards]; simp, fun {k h} hk => ?_⟩
    have hh := List.mem_of_getElem? hk
    obtain ⟨h1, h2, h3⟩ := hd.handler_lt h hh
    refine ⟨guardOf _ h k, ?_, rfl, rfl, (blockOf_eq hlen h3).mpr rfl, fun _ => covers_guardOf,
      hd.blockNumber_lt (by omega), fun hB => hd.range_iff hh hB⟩
    rw [hd.guards, List.getElem?_map, List.getElem?_zipIdx, hk]
    simp

/-- Two handlers with one entry, one of them around the other, a switch that names a block twice and
a cut behind the body. -/
theorem faithful_of_build_nested :
    let is : List Instr :=
      [.load 0, .branch .zero 4, .invoke 0, .goto 5, .load 1, .switch 0 [4, 6, 4] 6, .ret]
    let handlers : List Handler :=
      [⟨2, 4, 6, "IOError", 0, 0⟩, ⟨2, 3, 4, "Error", 0, 0⟩, ⟨0, 5, 6, "Error", 0, 0⟩]
    ∃ g, build "f" is handlers [2, 6] = .ok g ∧
      g.blocks.map (fun B => (B.start, B.stop, B.succs, B.excSuccs)) =
        [(0, 2, [1, 3], [5]), (2, 3, [2], [5, 3]), (3, 4, [4], [5]), (4, 5, [4], [5]),
          (5, 6, [3, 5], []), (6, 7, [], [])] ∧
      g.Faithful is handlers [2, 6] := by
  intro is handlers
  have hg : build "f" is handlers [2, 6] = .ok (assemble is handlers [2, 6]) := rfl
  exact ⟨_, hg, by decide +kernel, faithful_of_build hg⟩

end Graph

end Resumable
