import Resumable.Assembly.Draft
import Resumable.Proofs.Attempt

/-!
# Parsers that succeed

`p.Gives ts a ts'` says that a parser takes tokens from the front of `ts`, answers `a` and leaves
`ts'`; `Yields p s ts a s' ts'` says the same of a parser with a state. Both are known from the
parts: `gives_bind` and `yields_bind` take a sequence apart, and every basic production has a lemma
that says exactly when it succeeds. Proofs about larger productions use these lemmas in both
directions.
-/

namespace Resumable.Assembly

open Assembly.Parser

section

variable {α β σ : Type} {ts ts' : List Token}

/-- The parser takes the front of `ts`, up to `ts'`, for `a`. -/
def Parser.Gives (p : Parser α) (ts : List Token) (a : α) (ts' : List Token) : Prop :=
  p.run ts = .ok (a, ts')

/-- The same for a parser that also takes the state from `s` to `s'`. -/
def Yields (p : StateT σ Parser α) (s : σ) (ts : List Token) (a : α) (s' : σ)
    (ts' : List Token) : Prop :=
  (p.run s).Gives ts (a, s') ts'

theorem reject_ne_ok {fault : Fault} {a : α} : reject fault ≠ .ok a := Attempt.fail_ne_ok

/-! ### Sequences -/

namespace Parser

theorem gives_bind {p : Parser α} {k : α → Parser β} {b : β} :
    (p >>= k).Gives ts b ts' ↔ ∃ a mid, p.Gives ts a mid ∧ (k a).Gives mid b ts' := by
  change (p.run ts >>= fun r => (k r.1).run r.2) = _ ↔ _
  rw [bind_eq_ok]
  exact Prod.exists

/-- What a parser gives is all that it gives. -/
theorem Gives.iff {p : Parser α} {a b : α} {mid : List Token} (h : p.Gives ts a mid) :
    p.Gives ts b ts' ↔ a = b ∧ mid = ts' := by
  rw [Gives, show p.run ts = .ok (a, mid) from h, Except.ok.injEq, Prod.mk.injEq]

theorem Gives.bind {p : Parser α} {k : α → Parser β} {a : α} {b : β} {mid : List Token}
    (h : p.Gives ts a mid) (hk : (k a).Gives mid b ts') : (p >>= k).Gives ts b ts' :=
  gives_bind.mpr ⟨a, mid, h, hk⟩

theorem gives_pure {a b : α} : (pure a : Parser α).Gives ts b ts' ↔ a = b ∧ ts = ts' :=
  Gives.iff rfl

theorem gives_attempt {x : Attempt α} {a : α} :
    (liftM x : Parser α).Gives ts a ts' ↔ x = .ok a ∧ ts = ts' := by
  change (x >>= fun a => Except.ok (a, ts)) = _ ↔ _
  rw [bind_eq_ok]
  constructor
  · rintro ⟨a, hx, h⟩
    cases h
    exact ⟨hx, rfl⟩
  · rintro ⟨hx, rfl⟩
    exact ⟨a, hx, rfl⟩

theorem gives_get {s : List Token} :
    (get : Parser (List Token)).Gives ts s ts' ↔ ts = s ∧ ts = ts' :=
  Gives.iff rfl

theorem gives_set {s : List Token} {a : PUnit} :
    (set s : Parser PUnit).Gives ts a ts' ↔ s = ts' :=
  (Gives.iff (by rfl)).trans (and_iff_right rfl)

end Parser

variable {s s' : σ}

theorem yields_bind {p : StateT σ Parser α} {k : α → StateT σ Parser β} {b : β} :
    Yields (p >>= k) s ts b s' ts' ↔
      ∃ a r mid, Yields p s ts a r mid ∧ Yields (k a) r mid b s' ts' := by
  change ((p.run s >>= fun q => (k q.1).run q.2) : Parser _).Gives _ _ _ ↔ _
  rw [gives_bind, Prod.exists]
  rfl

section

variable {p : StateT σ Parser α} {k : α → StateT σ Parser β} {a a' : α} {b : β} {r : σ}
  {mid : List Token}

theorem Yields.iff (h : Yields p s ts a r mid) :
    Yields p s ts a' s' ts' ↔ a = a' ∧ r = s' ∧ mid = ts' := by
  rw [Yields, Gives.iff h, Prod.mk.injEq, and_assoc]

theorem Yields.bind (h : Yields p s ts a r mid) (hk : Yields (k a) r mid b s' ts') :
    Yields (p >>= k) s ts b s' ts' :=
  yields_bind.mpr ⟨a, r, mid, h, hk⟩

/-- What a parser gives decides how a sequence goes on. -/
theorem yields_bind_of (h : Yields p s ts a r mid) :
    Yields (p >>= k) s ts b s' ts' ↔ Yields (k a) r mid b s' ts' := by
  refine ⟨fun hb => ?_, h.bind⟩
  obtain ⟨a', r', mid', h', hk⟩ := yields_bind.mp hb
  obtain ⟨rfl, rfl, rfl⟩ := h.iff.mp h'
  exact hk

end

theorem yields_pure {a b : α} :
    Yields (pure a : StateT σ Parser α) s ts b s' ts' ↔ a = b ∧ s = s' ∧ ts = ts' :=
  Yields.iff rfl

theorem yields_return {a : α} : Yields (pure a : StateT σ Parser α) s ts a s ts :=
  yields_pure.mpr ⟨rfl, rfl, rfl⟩

/-- A parser without a state leaves the state as it is. -/
theorem yields_lift {p : Parser α} {a : α} :
    Yields (liftM p : StateT σ Parser α) s ts a s' ts' ↔ p.Gives ts a ts' ∧ s = s' := by
  change (p >>= fun a => pure (a, s)).Gives ts (a, s') ts' ↔ _
  simp only [gives_bind, gives_pure, Prod.mk.injEq]
  constructor
  · rintro ⟨b, mid, hp, ⟨rfl, rfl⟩, rfl⟩
    exact ⟨hp, rfl⟩
  · rintro ⟨hp, rfl⟩
    exact ⟨a, ts', hp, ⟨rfl, rfl⟩, rfl⟩

theorem yields_lift_bind {p : Parser α} {k : α → StateT σ Parser β} {b : β} :
    Yields (liftM p >>= k) s ts b s' ts' ↔
      ∃ a mid, p.Gives ts a mid ∧ Yields (k a) s mid b s' ts' := by
  simp only [yields_bind, yields_lift]
  constructor
  · rintro ⟨a, _, mid, ⟨hp, rfl⟩, hk⟩
    exact ⟨a, mid, hp, hk⟩
  · rintro ⟨a, mid, hp, hk⟩
    exact ⟨a, s, mid, ⟨hp, rfl⟩, hk⟩

theorem Parser.Gives.lift_bind {p : Parser α} {k : α → StateT σ Parser β} {a : α} {b : β}
    {mid : List Token} (h : p.Gives ts a mid) (hk : Yields (k a) s mid b s' ts') :
    Yields (liftM p >>= k) s ts b s' ts' :=
  yields_lift_bind.mpr ⟨a, mid, h, hk⟩

theorem yields_attempt {x : Attempt α} {a : α} :
    Yields (liftM x : StateT σ Parser α) s ts a s' ts' ↔ x = .ok a ∧ s = s' ∧ ts = ts' := by
  change Yields (liftM (liftM x : Parser α) : StateT σ Parser α) s ts a s' ts' ↔ _
  rw [yields_lift, gives_attempt, and_assoc, and_comm (a := ts = ts')]

theorem yields_get {r : σ} :
    Yields (get : StateT σ Parser σ) s ts r s' ts' ↔ s = r ∧ s = s' ∧ ts = ts' :=
  Yields.iff rfl

theorem yields_modify {f : σ → σ} {a : PUnit} :
    Yields (modify f : StateT σ Parser PUnit) s ts a s' ts' ↔ f s = s' ∧ ts = ts' :=
  (Yields.iff (by rfl)).trans (and_iff_right rfl)

theorem yields_getTokens {r : List Token} :
    Yields (getThe (List Token) : StateT σ Parser (List Token)) s ts r s' ts' ↔
      ts = r ∧ s = s' ∧ ts = ts' :=
  Yields.iff rfl

theorem yields_setTokens {r : List Token} {a : PUnit} :
    Yields (set r : StateT σ Parser PUnit) s ts a s' ts' ↔ s = s' ∧ r = ts' :=
  (Yields.iff (by rfl)).trans (and_iff_right rfl)

/-- A check before the rest. -/
theorem yields_unless {c : Prop} [Decidable c] {fault : Fault} {k : α → StateT σ Parser β}
    {p : StateT σ Parser β} {b : β} :
    Yields (if c then (liftM (reject fault : Attempt α) : StateT σ Parser α) >>= k else p) s ts b s'
      ts' ↔ ¬c ∧ Yields p s ts b s' ts' := by
  split
  next h =>
    rw [yields_bind]
    refine iff_of_false ?_ fun hn => hn.1 h
    rintro ⟨a, r, mid, ha, -⟩
    exact reject_ne_ok (yields_attempt.mp ha).1
  next h => exact (and_iff_right h).symm

end

/-! ### Basic productions -/

namespace Parser

variable {ts ts' : List Token} {t : Token}

theorem gives_peek : peek.Gives ts t ts' ↔ ts = ts' ∧ ∃ rest, ts = t :: rest := by
  cases ts with
  | nil => exact iff_of_false (fun h => nomatch h) fun h => nomatch h.2
  | cons a rest =>
    change Except.ok (a, a :: rest) = Except.ok (t, ts') ↔ _
    rw [Except.ok.injEq, Prod.mk.injEq, and_comm]
    simp

theorem gives_next : next.Gives ts t ts' ↔ ts = t :: ts' := by
  cases ts with
  | nil => exact iff_of_false (fun h => nomatch h) fun h => nomatch h
  | cons a rest =>
    change Except.ok (a, rest) = Except.ok (t, ts') ↔ _
    rw [Except.ok.injEq, Prod.mk.injEq, List.cons.injEq]

theorem gives_skip {n : Nat} {a : Unit} : (skip n).Gives ts a ts' ↔ ts.drop n = ts' :=
  (Gives.iff (by rfl)).trans (and_iff_right rfl)

theorem gives_expect {kind : TokenKind} :
    (expect kind).Gives ts t ts' ↔ ts = t :: ts' ∧ t.kind = kind := by
  simp only [expect, gives_bind, gives_next]
  constructor
  · rintro ⟨a, mid, rfl, h⟩
    split at h
    next hk =>
      obtain ⟨rfl, rfl⟩ := gives_pure.mp h
      exact ⟨rfl, hk⟩
    next => exact absurd (gives_attempt.mp h).1 reject_ne_ok
  · rintro ⟨rfl, hk⟩
    exact ⟨t, ts', rfl, by rw [if_pos hk]; exact gives_pure.mpr ⟨rfl, rfl⟩⟩

theorem gives_close {a : Unit} : close.Gives ts a ts' ↔ ∃ t, ts = t :: ts' ∧ t.kind = .rparen := by
  simp only [close, gives_bind, gives_expect, gives_pure]
  constructor
  · rintro ⟨t, mid, ⟨rfl, hk⟩, -, rfl⟩
    exact ⟨t, rfl, hk⟩
  · rintro ⟨t, rfl, hk⟩
    exact ⟨t, ts', ⟨rfl, hk⟩, trivial, rfl⟩

theorem gives_keyword {word : Text} {a : Unit} :
    (keyword word).Gives ts a ts' ↔ ∃ t, ts = t :: ts' ∧ t.kind = .ident ∧ t.text = word := by
  simp only [keyword, gives_bind, gives_expect]
  constructor
  · rintro ⟨t, mid, ⟨rfl, hk⟩, h⟩
    split at h
    next hw =>
      obtain ⟨-, rfl⟩ := gives_pure.mp h
      exact ⟨t, rfl, hk, hw⟩
    next => exact absurd (gives_attempt.mp h).1 reject_ne_ok
  · rintro ⟨t, rfl, hk, hw⟩
    exact ⟨t, ts', ⟨rfl, hk⟩, by rw [if_pos hw]; exact gives_pure.mpr ⟨rfl, rfl⟩⟩

theorem gives_form {w : Text} : form.Gives ts w ts' ↔ formOf ts = w ∧ ts = ts' :=
  Gives.iff rfl

theorem gives_ident? {o : Option Token} :
    ident?.Gives ts o ts' ↔
      (∃ t, o = some t ∧ ts = t :: ts' ∧ t.kind = .ident) ∨
        (o = none ∧ ts = ts' ∧ ∀ t rest, ts = t :: rest → t.kind ≠ .ident) := by
  cases ts with
  | nil =>
    change Except.ok (none, []) = Except.ok (o, ts') ↔ _
    simp [eq_comm]
  | cons a rest =>
    by_cases hk : a.kind = .ident
    · have hrun : ident?.run (a :: rest) = .ok (some a, rest) := by
        change (if a.kind = .ident then _ else _ : Parser _) (a :: rest) = _
        rw [if_pos hk]
        rfl
      rw [Gives, hrun]
      grind
    · have hrun : ident?.run (a :: rest) = .ok (none, a :: rest) := by
        change (if a.kind = .ident then _ else _ : Parser _) (a :: rest) = _
        rw [if_neg hk]
        rfl
      rw [Gives, hrun]
      grind

end Parser

/-! ### Productions of bodies -/

namespace BodyParser

variable {ts ts' : List Token} {a : Unit} {s s' : CodeUnit × BodyDraft}

theorem yields_modifyDraft {f : BodyDraft → BodyDraft} :
    Yields (modifyDraft f) s ts a s' ts' ↔ (s.1, f s.2) = s' ∧ ts = ts' :=
  yields_modify

theorem yields_unit {u : CodeUnit} :
    Yields unit s ts u s' ts' ↔ s.1 = u ∧ s = s' ∧ ts = ts' :=
  Yields.iff rfl

theorem yields_draft {d : BodyDraft} :
    Yields draft s ts d s' ts' ↔ s.2 = d ∧ s = s' ∧ ts = ts' :=
  Yields.iff rfl

theorem yields_use {ref : LabelRef} {name : Text} :
    Yields (use ref) s ts name s' ts' ↔
      (s.1, { s.2 with refs := s.2.refs ++ [ref] }) = s' ∧ ref.name = name ∧ ts = ts' :=
  (Yields.iff (by rfl)).trans and_left_comm

theorem yields_string {text : Text} {n : UInt32} :
    Yields (string text) s ts n s' ts' ↔
      (s.1.addString text).1 = n ∧ ((s.1.addString text).2, s.2) = s' ∧ ts = ts' :=
  Yields.iff rfl

theorem yields_symbol {x : Symbol} {n : UInt32} :
    Yields (symbol x) s ts n s' ts' ↔
      (s.1.addSymbol x).1 = n ∧ ((s.1.addSymbol x).2, s.2) = s' ∧ ts = ts' :=
  Yields.iff rfl

end BodyParser

end Resumable.Assembly
