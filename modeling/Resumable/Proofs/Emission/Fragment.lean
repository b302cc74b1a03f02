import Mathlib.Algebra.Group.Nat.Defs
import Resumable.Emission.Fragment
import Resumable.Proofs.Pointwise

/-!
# Places in a fragment

Where the instructions and the labels of a fragment end up. A label that is marked once stands for
the number of instructions before its mark; with the places of all labels known, finishing a fragment
replaces labels and changes nothing else.
-/

namespace Resumable

open Labelled List

/-- The instruction, with addresses for labels. -/
def Labelled.toInstr {Label : Type} (address : Label → UInt32) : Labelled Label → Instr
  | plain i => i
  | goto l => .goto (address l)
  | branch test l => .branch test (address l)
  | switch low ls d => .switch low (ls.map address) (address d)

/-- The handler, with addresses for labels. -/
def LabelledHandler.toHandler {Label : Type} (address : Label → UInt32)
    (h : LabelledHandler Label) : Handler :=
  { start := address h.start, stop := address h.stop, target := address h.target
    cls := h.cls, region := h.region, kind := h.kind }

namespace Fragment

variable {Label : Type} {xs ys : List (Item Label)} {l : Label}

@[simp] theorem codes_nil : codes ([] : List (Item Label)) = [] := rfl

@[simp] theorem codes_mark : codes (.mark l :: xs) = codes xs := rfl

@[simp] theorem codes_code {i : Labelled Label} : codes (.code i :: xs) = i :: codes xs := rfl

@[simp] theorem codes_append : codes (xs ++ ys) = codes xs ++ codes ys := by
  induction xs with
  | nil => rfl
  | cons x xs ih =>
    cases x with
    | mark l => exact ih
    | code i => rw [cons_append, codes_code, codes_code, ih, cons_append]

@[simp] theorem codes_flatMap {α : Type} (l : List α) (f : α → List (Item Label)) :
    codes (l.flatMap f) = l.flatMap fun a => codes (f a) := by
  induction l with
  | nil => rfl
  | cons a l ih => rw [flatMap_cons, flatMap_cons, codes_append, ih]

/-- The instructions of one part of a row of parts stand behind those of the parts before. -/
theorem codes_flatMap_split {α : Type} {part : α → List (Item Label)} {row : List α} {j : Nat}
    {a : α} (h : row[j]? = some a) :
    codes (row.flatMap part) = codes ((row.take j).flatMap part) ++
      (codes (part a) ++ codes ((row.drop (j + 1)).flatMap part)) := by
  have hrow : row = row.take j ++ (a :: row.drop (j + 1)) := by
    obtain ⟨hj, rfl⟩ := List.getElem?_eq_some_iff.mp h
    rw [← drop_eq_getElem_cons hj, take_append_drop]
  conv_lhs => rw [hrow]
  rw [flatMap_append, flatMap_cons, codes_append, codes_append]

theorem marksFrom_append (pc : Nat) :
    marksFrom pc (xs ++ ys) = marksFrom pc xs ++ marksFrom (pc + (codes xs).length) ys := by
  induction xs generalizing pc with
  | nil => rfl
  | cons x xs ih =>
    cases x with
    | mark l =>
      rw [cons_append, marksFrom, marksFrom, ih]
      rfl
    | code i =>
      rw [cons_append, marksFrom, marksFrom, ih, codes_code, length_cons,
        Nat.add_right_comm, Nat.add_assoc]

/-- A mark in a row of parts stands in one of them, behind the instructions of the parts before. -/
theorem mem_marksFrom_flatMap {α : Type} {part : α → List (Item Label)} {row : List α} {pc k : Nat} :
    (l, k) ∈ marksFrom pc (row.flatMap part) ↔ ∃ j a, row[j]? = some a ∧
      (l, k) ∈ marksFrom (pc + (codes ((row.take j).flatMap part)).length) (part a) := by
  induction row generalizing pc with
  | nil => simp [marksFrom]
  | cons b row ih =>
    rw [flatMap_cons, marksFrom_append, mem_append, ih]
    constructor
    · rintro (h | ⟨j, a, hj, h⟩)
      · exact ⟨0, b, rfl, h⟩
      · refine ⟨j + 1, a, hj, ?_⟩
        rwa [take_succ_cons, flatMap_cons, codes_append, length_append, ← Nat.add_assoc]
    · rintro ⟨j, a, hj, h⟩
      cases j with
      | zero =>
        cases hj
        exact .inl h
      | succ j =>
        rw [take_succ_cons, flatMap_cons, codes_append, length_append,
          ← Nat.add_assoc] at h
        exact .inr ⟨j, a, hj, h⟩

section

variable [BEq Label] [LawfulBEq Label] {f : Fragment Label} {k : Nat}

/-- The place of a label all of whose marks stand at the same place. -/
theorem place?_of_mem (h : (l, k) ∈ marksFrom 0 f.items)
    (hone : ∀ k', (l, k') ∈ marksFrom 0 f.items → k' = k) : f.place? l = some k := by
  have hsome : ((marksFrom 0 f.items).reverse.lookup l).isSome :=
    lookup_isSome_iff.mpr ⟨(l, k), mem_reverse.mpr h, beq_self_eq_true l⟩
  obtain ⟨k', hk'⟩ := Option.isSome_iff_exists.mp hsome
  obtain ⟨before, after, hsplit, _⟩ := List.lookup_eq_some_iff.mp hk'
  have hmem : (l, k') ∈ (marksFrom 0 f.items).reverse := by
    rw [hsplit]
    simp
  unfold place?
  rw [hk', hone k' (mem_reverse.mp hmem)]

/-- The address of a label; labels without a mark do not matter. -/
def address (f : Fragment Label) (l : Label) : UInt32 := UInt32.ofNat ((f.place? l).getD 0)

theorem address_of_mem (h : (l, k) ∈ marksFrom 0 f.items)
    (hone : ∀ k', (l, k') ∈ marksFrom 0 f.items → k' = k) : f.address l = UInt32.ofNat k := by
  unfold address
  rw [place?_of_mem h hone]
  rfl

/-- Is a label marked? -/
def Marked (f : Fragment Label) (l : Label) : Prop := (f.place? l).isSome

theorem marked_iff : f.Marked l ↔ ∃ k, (l, k) ∈ marksFrom 0 f.items := by
  unfold Marked place?
  rw [lookup_isSome_iff]
  simp only [mem_reverse, beq_iff_eq, Prod.exists]
  exact ⟨fun ⟨_, k, h, heq⟩ => ⟨k, heq ▸ h⟩, fun ⟨k, h⟩ => ⟨l, k, h, rfl⟩⟩

/-- The address of a label is the place of one of its marks. -/
theorem Marked.exists_mark (h : f.Marked l) :
    ∃ k, (l, k) ∈ marksFrom 0 f.items ∧ f.address l = UInt32.ofNat k := by
  obtain ⟨k, hk⟩ := Option.isSome_iff_exists.mp h
  refine ⟨k, ?_, by rw [address, hk]; rfl⟩
  obtain ⟨before, after, hsplit, _⟩ := List.lookup_eq_some_iff.mp hk
  rw [← mem_reverse, hsplit]
  simp

end

/-- A mark stands among the instructions or right behind them. -/
theorem le_of_mem_marksFrom {pc k : Nat} (h : (l, k) ∈ marksFrom pc xs) :
    k ≤ pc + (codes xs).length := by
  induction xs generalizing pc with
  | nil => cases h
  | cons x xs ih =>
    cases x with
    | mark l' =>
      rcases mem_cons.mp h with heq | h
      · cases heq
        omega
      · exact ih h
    | code i =>
      have := ih h
      rw [codes_code, length_cons]
      omega

variable [BEq Label] {f : Fragment Label}

theorem place_eq_ok {ε : Type} {fault : Label → ε} {n : UInt32} :
    f.place fault l = .ok n ↔ f.Marked l ∧ f.address l = n := by
  unfold place address Marked
  cases f.place? l <;> simp

theorem resolve_eq_ok {ε : Type} {fault : Label → ε} {i : Labelled Label} {j : Instr} :
    i.resolve (f.place fault) = .ok j ↔
      (∀ l ∈ i.labels, f.Marked l) ∧ i.toInstr f.address = j := by
  have hmap (ls : List Label) (ns : List UInt32) : ls.mapM (f.place fault) = .ok ns ↔ _ :=
    mapM_eq_ok_map fun l n => place_eq_ok
  cases i with
  | plain i => simp [resolve, labels, toInstr, pure_eq_ok]
  | goto l | branch test l =>
    simp only [resolve, labels, toInstr, bind_eq_ok, pure_eq_ok,
      place_eq_ok]
    simp
  | switch low ls d =>
    simp only [resolve, labels, toInstr, bind_eq_ok, pure_eq_ok,
      place_eq_ok, hmap]
    constructor
    · rintro ⟨_, ⟨hls, rfl⟩, _, ⟨hd, rfl⟩, rfl⟩
      exact ⟨by simpa [or_imp, forall_and] using ⟨hls, hd⟩, rfl⟩
    · rintro ⟨h, rfl⟩
      exact ⟨_, ⟨fun l hl => h l (by simp [hl]), rfl⟩, _, ⟨h d (by simp), rfl⟩, rfl⟩

theorem placeHandler_eq_ok {h : LabelledHandler Label} {k : Nat} {h' : Handler} :
    f.placeHandler h k = .ok h' ↔
      (f.Marked h.start ∧ f.Marked h.stop ∧ f.Marked h.target) ∧ h.toHandler f.address = h' := by
  simp only [placeHandler, bind_eq_ok, pure_eq_ok, place_eq_ok, LabelledHandler.toHandler]
  grind

/-- **Finishing a fragment puts addresses in the place of labels.** It fails if some label has no
mark. -/
theorem finish_eq_ok {is : List Instr} {hs : List Handler} :
    f.finish = .ok (is, hs) ↔
      ((∀ i ∈ codes f.items, ∀ l ∈ i.labels, f.Marked l) ∧
        (codes f.items).map (·.toInstr f.address) = is) ∧
      (∀ h ∈ f.handlers, f.Marked h.start ∧ f.Marked h.stop ∧ f.Marked h.target) ∧
        (f.handlers.map (·.toHandler f.address)).filter (fun h => h.start < h.stop) = hs := by
  have hcodes : ∀ is : List Instr,
      (codes f.items).zipIdx.mapM (fun q => q.1.resolve (f.place (FragmentFault.code q.2))) =
        .ok is ↔ _ :=
    fun is => mapM_zipIdx_eq_ok_map (p := fun i : Labelled Label => ∀ l ∈ i.labels, f.Marked l)
      (g := toInstr f.address) fun i pc j => resolve_eq_ok
  have hhandlers : ∀ hs : List Handler,
      f.handlers.zipIdx.mapM (fun q => f.placeHandler q.1 q.2) = .ok hs ↔ _ :=
    fun hs => mapM_zipIdx_eq_ok_map
      (p := fun h : LabelledHandler Label => f.Marked h.start ∧ f.Marked h.stop ∧ f.Marked h.target)
      (g := LabelledHandler.toHandler f.address) fun h k h' => placeHandler_eq_ok
  unfold finish
  simp only [bind_eq_ok, pure_eq_ok, Prod.mk.injEq]
  constructor
  · rintro ⟨_, his, _, hhs, rfl, rfl⟩
    obtain ⟨hc, rfl⟩ := (hcodes _).mp his
    obtain ⟨hh, rfl⟩ := (hhandlers _).mp hhs
    exact ⟨⟨hc, rfl⟩, hh, rfl⟩
  · rintro ⟨⟨hc, rfl⟩, hh, rfl⟩
    exact ⟨_, (hcodes _).mpr ⟨hc, rfl⟩, _, (hhandlers _).mpr ⟨hh, rfl⟩, rfl, rfl⟩

/-- Labels stand within the code or right behind it. -/
theorem address_le [LawfulBEq Label] {is : List Instr} {hs : List Handler}
    (hfin : f.finish = .ok (is, hs)) (hsize : is.length < 2 ^ 32) (hm : f.Marked l) :
    (f.address l).toNat ≤ is.length := by
  obtain ⟨⟨_, rfl⟩, _⟩ := finish_eq_ok.mp hfin
  obtain ⟨k, hk, haddr⟩ := hm.exists_mark
  have hle := le_of_mem_marksFrom hk
  rw [length_map] at hsize ⊢
  rw [haddr, UInt32.toNat_ofNat_of_lt' (show _ < 2 ^ 32 by omega)]
  omega

end Fragment

end Resumable
