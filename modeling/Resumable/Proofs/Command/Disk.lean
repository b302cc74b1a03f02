import Mathlib.Data.List.Basic
import Resumable.Command.Disk
import Resumable.Proofs.Attempt

/-!
# What operations do to a disk

A path leads to the same place on every disk that lets it through, so operations can be told apart
by the places of their paths. Directories are never taken away: making one puts it where nothing
was, and writing puts a file where no directory is. What was found once is found again, as long as
nobody writes to its place.
-/

namespace Resumable

open List

namespace Disk

variable {d e : Disk} {p q : List Text} {path : Text} {data : Bytes}

/-! ## Places -/

/-- One part of a path on the way. -/
def enter (place : List Text) (part : Text) : List Text :=
  if part.isEmpty || part = "." then place
  else if part = ".." then place.dropLast
  else place ++ [part]

/-- The place that a path stands for, whether there is a way to it or not. -/
def spot (here : List Text) (path : Text) : List Text :=
  (Path.parts path).foldl enter (if Path.isAbsolute path then [] else here)

theorem walk_cons {part : Text} {parts : List Text} :
    d.walk p (part :: parts) =
      match d.node? p with
      | none => .error .noEntry
      | some (.file _) => .error .notDirectory
      | some .directory => d.walk (enter p part) parts := by
  rw [walk]
  unfold enter
  cases d.node? p with
  | none => rfl
  | some n =>
    cases n with
    | file data => rfl
    | directory => split_ifs <;> rfl

theorem walk_eq_ok {parts : List Text} (h : d.walk p parts = .ok q) : q = parts.foldl enter p := by
  induction parts generalizing p with
  | nil =>
    cases h
    rfl
  | cons part parts ih =>
    rw [walk_cons] at h
    split at h
    · cases h
    · cases h
    · exact ih h

theorem place_eq_ok (h : d.place path = .ok p) : p = spot d.here path := by
  unfold place at h
  split at h
  · cases h
  · exact walk_eq_ok h

/-- A path that has no slash at its end is not trimmed. -/
theorem trimmed_eq_self (h : path.endsWith "/" = false) : Path.trimmed path = path := by
  obtain ⟨bytes⟩ := path
  have hlast : ¬ [Path.slash] <:+ bytes := by
    intro hsuffix
    have : (⟨bytes⟩ : Text).endsWith "/" = true := isSuffixOf_iff_suffix.mpr hsuffix
    rw [h] at this
    cases this
  unfold Path.trimmed
  cases hrev : bytes.reverse with
  | nil =>
    rw [reverse_eq_nil_iff] at hrev
    subst hrev
    rfl
  | cons b rest =>
    have hbytes : bytes = rest.reverse ++ [b] := by
      rw [← reverse_reverse bytes, hrev, reverse_cons]
    have hb : b ≠ Path.slash := by
      rintro rfl
      exact hlast ⟨rest.reverse, hbytes.symm⟩
    rw [dropWhile_cons_of_neg (by simpa using hb), hbytes, reverse_cons]

/-- New things are put where they are found afterwards. -/
theorem newPlace_eq_place (h : path.endsWith "/" = false) : d.newPlace path = d.place path := by
  unfold newPlace place
  rw [trimmed_eq_self h]

/-! ## Nodes -/

theorem lookup_filter_ne {nodes : List (List Text × Node)} (h : q ≠ p) :
    (nodes.filter fun (r, _) => r ≠ p).lookup q = nodes.lookup q := by
  induction nodes with
  | nil => rfl
  | cons node nodes ih =>
    rw [filter_cons, lookup_cons]
    by_cases hnode : node.1 = p
    · rw [if_neg (by simpa using hnode), ih, beq_false_of_ne fun hq => h (hq.trans hnode)]
    · rw [if_pos (by simpa using hnode), lookup_cons, ih]

theorem node?_put {n : Node} (hp : p ≠ []) :
    (d.put p n).node? q = if q = p then some n else d.node? q := by
  unfold node? put
  by_cases hq : q.isEmpty
  · rw [if_pos hq, if_pos hq, if_neg]
    rintro rfl
    exact hp (List.isEmpty_iff.mp hq)
  · rw [if_neg hq, if_neg hq, lookup_cons]
    by_cases hqp : q = p
    · rw [if_pos hqp, beq_iff_eq.mpr hqp]
    · rw [if_neg hqp, beq_false_of_ne hqp]
      exact lookup_filter_ne hqp

theorem ne_nil_of_node? (h : d.node? p ≠ some .directory) : p ≠ [] := by
  rintro rfl
  exact h rfl

/-- What a disk may become: nothing may turn into a directory, and what is no directory into a file
that `writes` allows at its place. All the rest stays. -/
structure Alters (writes : List Text → Bytes → Prop) (d e : Disk) : Prop where
  here : e.here = d.here
  nodes : ∀ p, e.node? p = d.node? p ∨ (d.node? p = none ∧ e.node? p = some .directory) ∨
    d.node? p ≠ some .directory ∧ ∃ data, writes p data ∧ e.node? p = some (.file data)

namespace Alters

variable {writes writes' : List Text → Bytes → Prop} {c : Disk}

theorem refl (d : Disk) : Alters writes d d := ⟨rfl, fun _ => .inl rfl⟩

theorem mono (h : Alters writes d e) (hw : ∀ p data, writes p data → writes' p data) :
    Alters writes' d e := by
  refine ⟨h.here, fun p => ?_⟩
  rcases h.nodes p with hp | hp | ⟨hp, data, hdata, he⟩
  · exact .inl hp
  · exact .inr (.inl hp)
  · exact .inr (.inr ⟨hp, data, hw p data hdata, he⟩)

/-- Directories stay. -/
theorem directory (h : Alters writes d e) (hp : d.node? p = some .directory) :
    e.node? p = some .directory := by
  rcases h.nodes p with he | ⟨hnone, _⟩ | ⟨hne, _⟩
  · exact he.trans hp
  · rw [hp] at hnone
    cases hnone
  · exact absurd hp hne

theorem trans (h : Alters writes c d) (h' : Alters writes d e) : Alters writes c e := by
  refine ⟨h'.here.trans h.here, fun p => ?_⟩
  rcases h'.nodes p with he | ⟨hd, he⟩ | ⟨hd, data, hdata, he⟩
  · rw [he]
    exact h.nodes p
  · rcases h.nodes p with hc | ⟨hc, hc'⟩ | ⟨_, data, _, hc⟩
    · exact .inr (.inl ⟨hc.symm.trans hd, he⟩)
    · rw [hd] at hc'
      cases hc'
    · rw [hd] at hc
      cases hc
  · refine .inr (.inr ⟨fun hc => hd (h.directory hc), data, hdata, he⟩)

/-- Files stay as they are where nothing is written. -/
theorem file_iff (h : Alters writes d e) (hp : ∀ data, ¬ writes p data) {data : Bytes} :
    e.node? p = some (.file data) ↔ d.node? p = some (.file data) := by
  rcases h.nodes p with he | ⟨hd, he⟩ | ⟨_, data', hdata, _⟩
  · rw [he]
  · rw [hd, he]
    simp
  · exact absurd hdata (hp data')

/-- A way that was there is there still. -/
theorem walk_ok (h : Alters writes d e) {parts : List Text} (hw : d.walk p parts = .ok q) :
    e.walk p parts = .ok q := by
  induction parts generalizing p with
  | nil => exact hw
  | cons part parts ih =>
    rw [walk_cons] at hw ⊢
    split at hw
    · cases hw
    · cases hw
    next hp =>
      rw [h.directory hp]
      exact ih hw

theorem place_ok (h : Alters writes d e) (hp : d.place path = .ok p) : e.place path = .ok p := by
  unfold place at hp ⊢
  rw [h.here]
  split at hp
  · cases hp
  next hne =>
    rw [if_neg hne]
    exact h.walk_ok hp

end Alters

/-! ## Operations -/

theorem read_eq_ok :
    d.read path = .ok data ↔ ∃ p, d.place path = .ok p ∧ d.node? p = some (.file data) := by
  unfold read find
  constructor
  · intro h
    obtain ⟨n, hn, h⟩ := bind_eq_ok.mp h
    obtain ⟨p, hp, hn⟩ := bind_eq_ok.mp hn
    cases hnode : d.node? p with
    | none =>
      rw [hnode] at hn
      cases hn
    | some n' =>
      rw [hnode] at hn
      cases hn
      cases n with
      | directory => cases h
      | file data' =>
        cases h
        exact ⟨p, hp, hnode⟩
  · rintro ⟨p, hp, hnode⟩
    simp [hp, hnode, bind, Except.bind, pure, Except.pure]

/-- A file is read as before if nobody writes to its place. -/
theorem Alters.read_ok {writes : List Text → Bytes → Prop} (h : Alters writes d e)
    (hp : ∀ data, ¬ writes (spot d.here path) data) (hr : d.read path = .ok data) :
    e.read path = .ok data := by
  obtain ⟨p, hplace, hnode⟩ := read_eq_ok.mp hr
  obtain rfl := place_eq_ok hplace
  exact read_eq_ok.mpr ⟨_, h.place_ok hplace, (h.file_iff hp).mpr hnode⟩

theorem kind_eq_file (h : d.kind path = .ok .file) : ∃ data, d.read path = .ok data := by
  unfold kind at h
  unfold read
  obtain ⟨n, hn, h⟩ := bind_eq_ok.mp h
  cases n with
  | directory => cases h
  | file data => exact ⟨data, by rw [hn]; rfl⟩

theorem change_of_ok {f : Disk → Except FileFault Disk} (h : f d = .ok e) :
    change f d = (.ok (), e) := by
  unfold change
  rw [h]

theorem change_of_error {f : Disk → Except FileFault Disk} {fault : FileFault}
    (h : f d = .error fault) : change f d = (.error fault, d) := by
  unfold change
  rw [h]

/-- Making a directory puts it where nothing was. -/
theorem alters_makeDirectory {writes : List Text → Bytes → Prop} :
    Alters writes d (fileSystem.makeDirectory path d).2 := by
  show Alters writes d (change (·.makeDirectory path) d).2
  cases h : d.makeDirectory path with
  | error fault =>
    rw [change_of_error h]
    exact .refl d
  | ok d' =>
    rw [change_of_ok h]
    obtain ⟨p, hp, h⟩ := bind_eq_ok.mp h
    cases hnode : d.node? p with
    | some n =>
      rw [hnode] at h
      cases h
    | none =>
      rw [hnode] at h
      cases h
      refine ⟨rfl, fun q => ?_⟩
      have hne : p ≠ [] := ne_nil_of_node? (by rw [hnode]; simp)
      rw [node?_put hne]
      split_ifs with hq
      · subst hq
        exact .inr (.inl ⟨hnode, rfl⟩)
      · exact .inl rfl

theorem write_eq_ok (h : d.write path data = .ok e) :
    path.endsWith "/" = false ∧ d.place path = .ok (spot d.here path) ∧
      d.node? (spot d.here path) ≠ some .directory ∧ e = d.put (spot d.here path) (.file data) := by
  obtain ⟨p, hp, h⟩ := bind_eq_ok.mp h
  cases hend : path.endsWith "/" with
  | true =>
    rw [hend] at h
    cases h
  | false =>
    rw [hend] at h
    rw [newPlace_eq_place hend] at hp
    obtain rfl := place_eq_ok hp
    refine ⟨rfl, hp, ?_⟩
    cases hnode : d.node? (spot d.here path) with
    | none =>
      rw [hnode] at h
      cases h
      exact ⟨by simp, rfl⟩
    | some n =>
      cases n with
      | directory =>
        rw [hnode] at h
        cases h
      | file old =>
        rw [hnode] at h
        cases h
        exact ⟨by simp, rfl⟩

/-- Writing puts a file where no directory is, and nowhere else. -/
theorem alters_write (d : Disk) (path : Text) (data : Bytes) :
    Alters (fun p x => p = spot d.here path ∧ x = data) d (fileSystem.write path data d).2 := by
  show Alters _ d (change (·.write path data) d).2
  cases h : d.write path data with
  | error fault =>
    rw [change_of_error h]
    exact .refl d
  | ok d' =>
    rw [change_of_ok h]
    obtain ⟨-, -, hdir, rfl⟩ := write_eq_ok h
    refine ⟨rfl, fun q => ?_⟩
    rw [node?_put (ne_nil_of_node? hdir)]
    split_ifs with hq
    · subst hq
      exact .inr (.inr ⟨hdir, data, ⟨rfl, rfl⟩, rfl⟩)
    · exact .inl rfl

theorem fileSystem_write_ok (h : d.write path data = .ok e) :
    fileSystem.write path data d = (.ok (), e) :=
  change_of_ok (f := (·.write path data)) h

theorem fileSystem_write_error {fault : FileFault}
    (h : d.write path data = .error fault) : fileSystem.write path data d = (.error fault, d) :=
  change_of_error (f := (·.write path data)) h

/-- What was written is read. -/
theorem read_of_write (h : d.write path data = .ok e) : e.read path = .ok data := by
  have halters := alters_write d path data
  rw [fileSystem_write_ok h] at halters
  obtain ⟨-, hplace, hdir, rfl⟩ := write_eq_ok h
  refine read_eq_ok.mpr ⟨_, halters.place_ok hplace, ?_⟩
  rw [node?_put (ne_nil_of_node? hdir), if_pos rfl]

end Disk

end Resumable
