import Resumable.Command.Batch
import Resumable.Proofs.Command.Disk
import Resumable.Proofs.Quicksort.Sorted

/-!
# The units that arguments stand for

Arguments are looked at without changing anything, and every unit that they stand for is a file that
can be read.
-/

namespace Resumable

open Disk List

/-! ## Operations that only look -/

/-- A computation that leaves a disk as it is and whose answer is as `Q` says. -/
def Looks {α : Type} (d : Disk) (Q : α → Prop) (x : StateM Disk α) : Prop := (x d).2 = d ∧ Q (x d).1

namespace Looks

variable {α β : Type} {d : Disk} {Q : α → Prop} {R : β → Prop}

theorem pure {a : α} (h : Q a) : Looks d Q (Pure.pure a) := ⟨rfl, h⟩

theorem bind {x : StateM Disk α} {k : α → StateM Disk β} (hx : Looks d Q x)
    (hk : ∀ a, Q a → Looks d R (k a)) : Looks d R (x >>= k) := by
  obtain ⟨hd, hQ⟩ := hx
  have h := hk _ hQ
  unfold Looks at h ⊢
  rw [show (x >>= k) d = k (x d).1 (x d).2 from rfl, hd]
  exact h

theorem mapM {k : α → StateM Disk β} (hk : ∀ a, Looks d R (k a)) (row : List α) :
    Looks d (fun bs : List β => ∀ b ∈ bs, R b) (row.mapM k) := by
  induction row with
  | nil => exact pure (by simp)
  | cons a row ih =>
    rw [mapM_cons]
    refine (hk a).bind fun b hb => ih.bind fun bs hbs => pure ?_
    exact forall_mem_cons.mpr ⟨hb, hbs⟩

theorem kind (d : Disk) (path : Text) : Looks d (fun r => r = d.kind path) (fileSystem.kind path) :=
  ⟨rfl, rfl⟩

theorem names (d : Disk) (path : Text) : Looks d (fun _ => True) (fileSystem.names path) :=
  ⟨rfl, trivial⟩

end Looks

/-! ## Files below directories -/

/-- What was found can be read. -/
def Legible {α : Type} (d : Disk) (path : α → Text) : Except Error (List α) → Prop
  | .error _ => True
  | .ok found => ∀ f ∈ found, ∃ data, d.read (path f) = .ok data

/-- The files behind a name are found after those at it. -/
theorem FileSystem.looks_behind {d : Disk} {more : StateM Disk (Except Error (List Found))}
    (hmore : Looks d (Legible d Found.path) more)
    (here : Except Error (List Found)) : Legible d Found.path here → Looks d (Legible d Found.path)
      (match here with
      | .error e => pure (.error e)
      | .ok found => do
        match ← more with
        | .error e => return .error e
        | .ok more => return .ok (found ++ more)) := by
  intro hhere
  cases here with
  | error e => exact .pure trivial
  | ok found =>
    refine hmore.bind fun more hmore => ?_
    cases more with
    | error e => exact .pure trivial
    | ok more =>
      refine .pure fun f hf => ?_
      exact (mem_append.mp hf).elim (hhere f) (hmore f)

theorem FileSystem.looks_filesAmong (d : Disk)
    {below : Text → Text → List Text → StateM Disk (Except Error (List Found))}
    (hbelow : ∀ path relative names, Looks d (Legible d Found.path) (below path relative names))
    (path relative : Text) (names : List Text) :
    Looks d (Legible d Found.path) (fileSystem.filesAmong below path relative names) := by
  induction names with
  | nil => exact .pure (by simp [Legible])
  | cons name rest ih =>
    rw [filesAmong]
    dsimp only
    have hgo := looks_behind ih
    refine (Looks.kind d _).bind fun k hk => ?_
    rcases k with fault | (_ | _)
    · exact hgo (.error (fault.error "lstat" (Path.join path name))) trivial
    · refine hgo (.ok [⟨Path.join path name, _⟩]) fun f hf => ?_
      rw [mem_singleton.mp hf]
      exact kind_eq_file hk.symm
    · refine (Looks.names d _).bind fun below' _ => ?_
      cases below' with
      | error fault => exact hgo (.error (fault.error "open" (Path.join path name))) trivial
      | ok below' => exact (hbelow _ _ below').bind fun here hhere => hgo here hhere

theorem FileSystem.looks_filesBelow (d : Disk) (depth : Nat) (path relative : Text)
    (names : List Text) :
    Looks d (Legible d Found.path) (fileSystem.filesBelow depth path relative names) := by
  induction depth generalizing path relative names with
  | zero => exact .pure (by simp [Legible])
  | succ depth ih => exact looks_filesAmong d ih path relative names

theorem FileSystem.looks_files (d : Disk) (path : Text) :
    Looks d (Legible d Found.path) (fileSystem.files path) := by
  unfold files
  refine (Looks.kind d path).bind fun k hk => ?_
  match k with
  | .error fault => exact .pure trivial
  | .ok .file =>
    refine .pure fun f hf => ?_
    rw [mem_singleton.mp hf]
    exact kind_eq_file hk.symm
  | .ok .directory =>
    refine (Looks.names d path).bind fun below _ => ?_
    cases below with
    | error fault => exact .pure trivial
    | ok below => exact looks_filesBelow d _ path ∅ below

/-! ## Inputs -/

theorem Text.le_total (a b : Text) : a.le b = true ∨ b.le a = true := by
  obtain ⟨as⟩ := a
  obtain ⟨bs⟩ := b
  show le.go as bs = true ∨ le.go bs as = true
  induction as generalizing bs with
  | nil => exact .inl (by rw [le.go])
  | cons x xs ih =>
    cases bs with
    | nil => exact .inr (by rw [le.go])
    | cons y ys =>
      rw [le.go, le.go]
      rcases Nat.lt_trichotomy x.toNat y.toNat with h | h | h
      · exact .inl (by simp [UInt8.lt_iff_toNat_lt, h])
      · obtain rfl := UInt8.toNat_inj.mp h
        simpa using ih ys
      · exact .inr (by simp [UInt8.lt_iff_toNat_lt, h])

theorem Text.le_trans {a b c : Text} (hab : a.le b = true) (hbc : b.le c = true) :
    a.le c = true := by
  obtain ⟨as⟩ := a
  obtain ⟨bs⟩ := b
  obtain ⟨cs⟩ := c
  change le.go as bs = true at hab
  change le.go bs cs = true at hbc
  show le.go as cs = true
  induction as generalizing bs cs with
  | nil => rw [le.go]
  | cons x xs ih =>
    cases bs with
    | nil => cases hab
    | cons y ys =>
      cases cs with
      | nil => cases hbc
      | cons z zs =>
        simp only [le.go, Bool.or_eq_true, Bool.and_eq_true, decide_eq_true_eq,
          beq_iff_eq] at hab hbc ⊢
        rcases hab with hxy | ⟨rfl, hab⟩
        · rcases hbc with hyz | ⟨rfl, -⟩
          · exact .inl (UInt8.lt_trans hxy hyz)
          · exact .inl hxy
        · rcases hbc with hyz | ⟨rfl, hbc⟩
          · exact .inl hyz
          · exact .inr ⟨rfl, ih ys zs hab hbc⟩

/-- Texts in an order that can be sorted by. -/
theorem Text.order_lt {α : Type} (key : α → Text) :
    Quicksort.Order fun a b => (key a).lt (key b) where
  asymm := by
    intro a b h
    unfold Text.lt at h ⊢
    rcases Text.le_total (key a) (key b) with hle | hle
    · rw [hle]
      rfl
    · rw [hle] at h
      cases h
  trans := by
    intro a b c hab hbc
    unfold Text.lt at hab hbc ⊢
    rw [Bool.not_eq_false'] at hab hbc ⊢
    exact Text.le_trans hab hbc

namespace Batch

theorem looks_inputsOf (d : Disk) (arg : Text) :
    Looks d (Legible d Input.path) (inputsOf fileSystem arg) := by
  unfold inputsOf
  refine (Looks.kind d arg).bind fun k hk => ?_
  match k with
  | .error fault => exact .pure trivial
  | .ok .file =>
    refine .pure fun f hf => ?_
    rw [mem_singleton.mp hf]
    exact kind_eq_file hk.symm
  | .ok .directory =>
    refine (FileSystem.looks_files d arg).bind fun found hfound => ?_
    cases found with
    | error e => exact .pure trivial
    | ok found =>
      refine .pure fun f hf => ?_
      obtain ⟨g, hg, rfl⟩ := mem_map.mp hf
      exact hfound g (mem_filter.mp hg).1

/-- **Inputs can be read.** -/
theorem looks_collect (d : Disk) (args : List Text) :
    Looks d (Legible d Input.path) (collect fileSystem args) := by
  unfold collect
  refine (Looks.mapM (looks_inputsOf d) args).bind fun found hfound => ?_
  dsimp only
  split
  · exact .pure trivial
  · refine .pure fun f hf => ?_
    rw [(Quicksort.sort_sorts (Text.order_lt Input.path) _).1.mem_iff] at hf
    obtain ⟨xs, hxs, hf⟩ := mem_flatMap.mp hf
    have hlegible := hfound xs hxs
    cases xs with
    | error e => cases hf
    | ok xs => exact hlegible f hf

end Batch

end Resumable
