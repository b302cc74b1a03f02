import Mathlib.Data.List.Basic

/-!
# Deterministic systems that do the same

A system makes moves, some of which can be seen from outside, and may end with a result. Two systems
do the same if they perform the same rows of visible moves and end with the same results after them.
For deterministic systems it is enough to follow one of them: if every move of the first is matched
by at least one move of the second, then the second cannot do anything else either, because it has
no other way to go. So `Simulates` asks for one direction and `Simulates.same` gives both.
-/

namespace Resumable

open List

/-- What a system does next. -/
inductive Move (S E R : Type)
  | going (s : S) (event : Option E)
  | ended (result : R)

namespace Moves

variable {S T E R : Type} {f : S → Move S E R} {g : T → Move T E R}

/-- A number of moves from one state to another, with what can be seen of them. -/
inductive Runs (f : S → Move S E R) : Nat → S → List E → S → Prop
  | nil (s : S) : Runs f 0 s [] s
  | cons {n : Nat} {s s' s'' : S} {event : Option E} {events : List E}
      (h : f s = .going s' event) (hr : Runs f n s' events s'') :
      Runs f (n + 1) s (event.toList ++ events) s''

/-- The visible moves that a system makes at first, whatever comes then. -/
def Performs (f : S → Move S E R) (s : S) (events : List E) : Prop := ∃ n s', Runs f n s events s'

/-- All visible moves of a system that ends, and its result. -/
def Ends (f : S → Move S E R) (s : S) (events : List E) (r : R) : Prop :=
  ∃ n s', Runs f n s events s' ∧ f s' = .ended r

variable {n m : Nat} {s s' s'' : S} {t : T} {es es' : List E} {r r' : R}

/-! ## Runs -/

theorem Runs.append (h : Runs f n s es s') (h' : Runs f m s' es' s'') :
    Runs f (n + m) s (es ++ es') s'' := by
  induction h with
  | nil s =>
    rw [Nat.zero_add, nil_append]
    exact h'
  | cons hf _ ih =>
    rw [Nat.succ_add, append_assoc]
    exact .cons hf (ih h')

theorem Runs.one {event : Option E} (h : f s = .going s' event) : Runs f 1 s event.toList s' := by
  have := Runs.cons h (.nil s')
  rwa [append_nil] at this

/-- A run has passed wherever a shorter one leads. -/
theorem Runs.split (h : Runs f (n + m) s es s'') :
    ∃ es₁ es₂ s', es = es₁ ++ es₂ ∧ Runs f n s es₁ s' ∧ Runs f m s' es₂ s'' := by
  induction n generalizing s es with
  | zero =>
    rw [Nat.zero_add] at h
    exact ⟨[], es, s, rfl, .nil s, h⟩
  | succ n ih =>
    rw [Nat.succ_add] at h
    cases h with
    | cons hf hr =>
      obtain ⟨es₁, es₂, s', rfl, h1, h2⟩ := ih hr
      exact ⟨_, es₂, s', (append_assoc _ _ _).symm, .cons hf h1, h2⟩

theorem Runs.unique (h : Runs f n s es s') (h' : Runs f n s es' s'') : es = es' ∧ s' = s'' := by
  induction h generalizing es' with
  | nil s =>
    cases h'
    exact ⟨rfl, rfl⟩
  | cons hf _ ih =>
    cases h' with
    | cons hf' hr' =>
      rw [hf] at hf'
      cases hf'
      obtain ⟨rfl, rfl⟩ := ih hr'
      exact ⟨rfl, rfl⟩

/-- Nothing comes after the end. -/
theorem Runs.le_of_ended (h : Runs f n s es s') (hr : f s' = .ended r) (h' : Runs f m s es' s'') :
    m ≤ n := by
  by_contra hlt
  obtain ⟨k, rfl⟩ : ∃ k, m = n + (k + 1) := ⟨m - n - 1, by omega⟩
  obtain ⟨_, _, s₁, _, h1, h2⟩ := h'.split
  obtain ⟨_, rfl⟩ := h.unique h1
  cases h2 with
  | cons hf _ =>
    rw [hr] at hf
    cases hf

/-- What is performed up to a move was performed up to each earlier one. -/
theorem Runs.performs_of_le (h : Runs f n s (es ++ es') s') : Performs f s es := by
  generalize hall : es ++ es' = all at h
  induction h generalizing es with
  | nil s =>
    obtain ⟨rfl, _⟩ := append_eq_nil_iff.mp hall
    exact ⟨0, s, .nil s⟩
  | @cons n s s₁ s₂ event events hf _ ih =>
    cases event with
    | none =>
      obtain ⟨m, s', h⟩ := ih hall
      exact ⟨m + 1, s', .cons hf h⟩
    | some e =>
      cases es with
      | nil => exact ⟨0, s, .nil s⟩
      | cons e' es =>
        obtain ⟨rfl, hrest⟩ := cons.inj hall
        obtain ⟨m, s', h⟩ := ih hrest
        exact ⟨m + 1, s', .cons hf h⟩

/-- A system makes as many moves as one likes, or it ends before that. -/
theorem runs_or_ends (f : S → Move S E R) (n : Nat) (s : S) :
    (∃ es s', Runs f n s es s') ∨ ∃ es r, Ends f s es r := by
  induction n generalizing s with
  | zero => exact .inl ⟨[], s, .nil s⟩
  | succ n ih =>
    cases hf : f s with
    | ended r => exact .inr ⟨[], r, 0, s, .nil s, hf⟩
    | going s' event =>
      rcases ih s' with ⟨es, s'', h⟩ | ⟨es, r, m, s'', h, hr⟩
      · exact .inl ⟨_, s'', .cons hf h⟩
      · exact .inr ⟨_, r, m + 1, s'', .cons hf h, hr⟩

/-- Moves that cannot be seen lead from one state to another. -/
def Reaches (f : S → Move S E R) (s s' : S) : Prop := ∃ n, Runs f n s [] s'

theorem Reaches.refl (f : S → Move S E R) (s : S) : Reaches f s s := ⟨0, .nil s⟩

theorem Reaches.trans (h : Reaches f s s') (h' : Reaches f s' s'') : Reaches f s s'' := by
  obtain ⟨n, h⟩ := h
  obtain ⟨m, h'⟩ := h'
  exact ⟨n + m, h.append h'⟩

theorem Reaches.one (h : f s = .going s' none) : Reaches f s s' := ⟨1, .one h⟩

theorem Reaches.step (h : f s = .going s' none) (h' : Reaches f s' s'') : Reaches f s s'' :=
  (Reaches.one h).trans h'

/-- A run, and more moves that cannot be seen. -/
theorem Runs.reaches (h : Runs f (n + 1) s es s') (h' : Reaches f s' s'') :
    ∃ m, Runs f (m + 1) s es s'' := by
  obtain ⟨m, h'⟩ := h'
  have := h.append h'
  rw [append_nil, Nat.add_right_comm] at this
  exact ⟨n + m, this⟩

theorem Ends.unique (h : Ends f s es r) (h' : Ends f s es' r') : es = es' ∧ r = r' := by
  obtain ⟨n, s₁, h1, hr⟩ := h
  obtain ⟨m, s₂, h2, hr'⟩ := h'
  obtain rfl : n = m := Nat.le_antisymm (h2.le_of_ended hr' h1) (h1.le_of_ended hr h2)
  obtain ⟨rfl, rfl⟩ := h1.unique h2
  rw [hr] at hr'
  cases hr'
  exact ⟨rfl, rfl⟩

/-- The visible moves of a system that ends within some moves, and its result. -/
def run (f : S → Move S E R) : Nat → S → Option (List E × R)
  | 0, _ => none
  | n + 1, s =>
    match f s with
    | .ended r => some ([], r)
    | .going s' event => (run f n s').map fun (es, r) => (event.toList ++ es, r)

theorem ends_of_run (h : run f n s = some (es, r)) : Ends f s es r := by
  induction n generalizing s es with
  | zero => cases h
  | succ n ih =>
    unfold run at h
    split at h
    next r' hf =>
      cases h
      exact ⟨0, s, .nil s, hf⟩
    next s' event hf =>
      obtain ⟨⟨es', r'⟩, hrun, heq⟩ := Option.map_eq_some_iff.mp h
      cases heq
      obtain ⟨m, s'', hr, hr'⟩ := ih hrun
      exact ⟨m + 1, s'', .cons hf hr, hr'⟩

/-! ## Simulations -/

/-- Two systems perform the same visible moves, and end in the same way or not at all. -/
structure Same (f : S → Move S E R) (g : T → Move T E R) (s : S) (t : T) : Prop where
  performs : ∀ es, Performs f s es ↔ Performs g t es
  ends : ∀ es r, Ends f s es r ↔ Ends g t es r

/-- Every move of the first system is matched by one or more of the second. -/
structure Simulates (f : S → Move S E R) (g : T → Move T E R) (rel : S → T → Prop) : Prop where
  going : ∀ {s s' : S} {t : T} {event : Option E}, rel s t → f s = .going s' event →
    ∃ n t', Runs g (n + 1) t event.toList t' ∧ rel s' t'
  ended : ∀ {s : S} {t : T} {r : R}, rel s t → f s = .ended r → Ends g t [] r

/-- What the first system does next is matched by the second. -/
def Matched (g : T → Move T E R) (rel : S → T → Prop) (t : T) : Move S E R → Prop
  | .going s event => ∃ n t', Runs g (n + 1) t event.toList t' ∧ rel s t'
  | .ended r => Ends g t [] r

/-- A property of all states that a system comes to. -/
def Always (f : S → Move S E R) (P : S → Prop) (s : S) : Prop :=
  ∀ n es s', Runs f n s es s' → P s'

variable {rel : S → T → Prop} {P : S → Prop}

/-- States of a certain kind can be assumed if the first system only comes to such states. -/
theorem simulates_of_matched (h : ∀ {s t}, rel s t → P s → Matched g rel t (f s)) :
    Simulates f g fun s t => rel s t ∧ Always f P s where
  going {s s' t event} hst hf := by
    have hmatched := h hst.1 (hst.2 0 [] s (.nil s))
    rw [hf] at hmatched
    obtain ⟨n, t', hruns, hrel⟩ := hmatched
    exact ⟨n, t', hruns, hrel, fun m es s'' hr => hst.2 _ _ _ (.cons hf hr)⟩
  ended {s t r} hst hf := by
    have hmatched := h hst.1 (hst.2 0 [] s (.nil s))
    rw [hf] at hmatched
    exact hmatched

theorem Simulates.runs (hs : Simulates f g rel) (hst : rel s t) (h : Runs f n s es s') :
    ∃ m t', n ≤ m ∧ Runs g m t es t' ∧ rel s' t' := by
  induction h generalizing t with
  | nil s => exact ⟨0, t, Nat.le_refl 0, .nil t, hst⟩
  | cons hf _ ih =>
    obtain ⟨k, t₁, h1, hrel⟩ := hs.going hst hf
    obtain ⟨m, t', hle, h2, hrel'⟩ := ih hrel
    exact ⟨k + 1 + m, t', by omega, h1.append h2, hrel'⟩

theorem Simulates.ends (hs : Simulates f g rel) (hst : rel s t) (h : Ends f s es r) :
    Ends g t es r := by
  obtain ⟨n, s', h, hr⟩ := h
  obtain ⟨m, t', _, h1, hrel⟩ := hs.runs hst h
  obtain ⟨k, t'', h2, hr'⟩ := hs.ended hrel hr
  have := h1.append h2
  rw [append_nil] at this
  exact ⟨m + k, t'', this, hr'⟩

/-- **Following one of two deterministic systems is enough.** Whatever the second one does in some
moves, the first one has done it when it has made as many. -/
theorem Simulates.same (hs : Simulates f g rel) (hst : rel s t) : Same f g s t where
  performs es := by
    constructor
    · rintro ⟨n, s', h⟩
      obtain ⟨m, t', _, h, _⟩ := hs.runs hst h
      exact ⟨m, t', h⟩
    · rintro ⟨m, t', h⟩
      rcases runs_or_ends f m s with ⟨es₁, s₁, h1⟩ | ⟨es₁, r, hend⟩
      · obtain ⟨m', t₁, hle, h2, _⟩ := hs.runs hst h1
        obtain ⟨k, rfl⟩ := Nat.exists_eq_add_of_le hle
        obtain ⟨_, es₂, _, rfl, h3, _⟩ := h2.split
        obtain ⟨rfl, _⟩ := h.unique h3
        exact h1.performs_of_le
      · obtain ⟨m', t₁, h2, hr⟩ := hs.ends hst hend
        obtain ⟨k, rfl⟩ := Nat.exists_eq_add_of_le (h2.le_of_ended hr h)
        obtain ⟨_, es₂, _, rfl, h3, _⟩ := h2.split
        obtain ⟨rfl, _⟩ := h.unique h3
        obtain ⟨n, s₁, h1, _⟩ := hend
        exact h1.performs_of_le
  ends es r := by
    constructor
    · exact hs.ends hst
    · rintro ⟨m, t', h, hr⟩
      rcases runs_or_ends f (m + 1) s with ⟨es₁, s₁, h1⟩ | ⟨es₁, r₁, hend⟩
      · -- The second system would go on after its end.
        obtain ⟨m', t₁, hle, h2, _⟩ := hs.runs hst h1
        have := h.le_of_ended hr h2
        omega
      · obtain ⟨rfl, rfl⟩ := Ends.unique ⟨m, t', h, hr⟩ (hs.ends hst hend)
        exact hend

end Moves

end Resumable
