import Resumable.Wire.Reader

/-!
# Readers and the bytes they take

`Reads r bs x` says that a reader takes the bytes `bs`, whatever follows them, and gives `x`. Such
facts compose like the readers themselves.
-/

namespace Resumable.Wire

/-- A reader takes some bytes and nothing behind them. -/
def Reads {ε α : Type} (r : Reader ε α) (bs : Bytes) (x : α) : Prop :=
  ∀ rest p, ExceptT.run r ⟨bs ++ rest, p⟩ = (.ok x, ⟨rest, p + bs.length⟩)

/-- From one place to another there are these bytes. -/
def Takes (c : Cursor) (bs : Bytes) (c' : Cursor) : Prop :=
  c.rest = bs ++ c'.rest ∧ c'.position = c.position + bs.length

section

variable {ε α β : Type} {r : Reader ε α} {k : α → Reader ε β} {c c' : Cursor} {x : α} {y : β}
  {bs bs' : Bytes}

theorem run_bind_ok (h : ExceptT.run r c = (.ok x, c')) :
    ExceptT.run (r >>= k) c = ExceptT.run (k x) c' := by
  show ExceptT.bindCont k (ExceptT.run r c).1 (ExceptT.run r c).2 = _
  rw [h]
  rfl

/-- A row of two readers succeeds if both do. -/
theorem run_bind_eq_ok : ExceptT.run (r >>= k) c = (.ok y, c') ↔
    ∃ x c₁, ExceptT.run r c = (.ok x, c₁) ∧ ExceptT.run (k x) c₁ = (.ok y, c') := by
  constructor
  · intro h
    rcases hr : ExceptT.run r c with ⟨e | x, c₁⟩
    · change ExceptT.bindCont k (ExceptT.run r c).1 (ExceptT.run r c).2 = _ at h
      rw [hr] at h
      cases h
    · rw [run_bind_ok hr] at h
      exact ⟨x, c₁, rfl, h⟩
  · rintro ⟨x, c₁, hr, h⟩
    rw [run_bind_ok hr, h]

theorem run_bind_error {fault : ε} (h : ExceptT.run r c = (.error fault, c')) :
    ExceptT.run (r >>= k) c = (.error fault, c') := by
  show ExceptT.bindCont k (ExceptT.run r c).1 (ExceptT.run r c).2 = _
  rw [h]
  rfl

theorem run_get_bind {k : Cursor → Reader ε β} :
    ExceptT.run (get >>= k) c = ExceptT.run (k c) c := rfl

theorem run_set_bind {k : PUnit → Reader ε β} :
    ExceptT.run (set c' >>= k) c = ExceptT.run (k ⟨⟩) c' := rfl

theorem Reads.pure (x : α) : Reads (Pure.pure x : Reader ε α) [] x := fun _ _ => rfl

theorem Reads.bind (h : Reads r bs x) (h' : Reads (k x) bs' y) : Reads (r >>= k) (bs ++ bs') y := by
  intro rest p
  rw [List.append_assoc, run_bind_ok (h _ _), h', List.length_append, Nat.add_assoc]

theorem Reads.map {g : α → β} (h : Reads r bs x) :
    Reads (do return g (← r)) bs (g x) := by
  have := h.bind (k := fun x => Pure.pure (g x)) (.pure (g x))
  rwa [List.append_nil] at this

theorem run_map_eq_ok {g : α → β} : ExceptT.run (do return g (← r)) c = (.ok y, c') ↔
    ∃ x, ExceptT.run r c = (.ok x, c') ∧ g x = y := by
  rw [run_bind_eq_ok]
  constructor
  · rintro ⟨x, c₁, hx, h⟩
    cases h
    exact ⟨x, hx, rfl⟩
  · rintro ⟨x, hx, rfl⟩
    exact ⟨x, c', hx, rfl⟩

/-- A change of the faults does not concern what is read. -/
theorem run_adapt_ok {δ : Type} {f : ε → δ} :
    ExceptT.run (ExceptT.adapt f r) c = (.ok x, c') ↔ ExceptT.run r c = (.ok x, c') := by
  show ((ExceptT.run r c).1.mapError f, (ExceptT.run r c).2) = _ ↔ _
  rcases ExceptT.run r c with ⟨e | a, c₁⟩
  · constructor <;> intro h <;> cases h
  · constructor <;> intro h <;> cases h <;> rfl

theorem Reads.adapt {δ : Type} (h : Reads r bs x) (f : ε → δ) : Reads (ExceptT.adapt f r) bs x :=
  fun rest p => run_adapt_ok.mpr (h rest p)

theorem reads_byte (b : UInt8) : Reads Reader.byte [b] b := fun _ _ => rfl

end

end Resumable.Wire
