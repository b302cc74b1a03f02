import Resumable.Live.Analysis
import Resumable.Proofs.Attempt
import Resumable.Proofs.Live.BitSet
import Resumable.Proofs.Typing.Body

/-!
# What is live before an instruction

`Instr.Needs` says which positions an instruction needs when some are needed after it, without bit
sets. `Liveness.mem_transfer` says that the bit sets that the analysis computes are these positions,
and `Liveness.walkBack_mono` that more needs behind a row of instructions lead to more needs before
it. All this holds as long as a stack slot does not share its position with a local, that is as long
as positions fit into 32 bits.
-/

namespace Resumable

open List

variable {after : UInt32 → Prop} {v : UInt32} {i : Instr}

/-- The positions that an instruction needs, where `base` is the lowest stack slot that it takes and
`height` the number of slots before it. -/
def Instr.Needs (i : Instr) (locals base height : Nat) (after : UInt32 → Prop) (v : UInt32) :
    Prop :=
  match i with
  | .pop => v.toNat < locals + base ∧ after v
  | .load n => v = n ∨ (v.toNat < locals + base ∧ after v)
  | .store n => v.toNat = locals + base ∨ (v ≠ n ∧ v.toNat < locals + base ∧ after v)
  | _ =>
    (locals + base ≤ v.toNat ∧ v.toNat < locals + height) ∨ (v.toNat < locals + base ∧ after v)

theorem Instr.needs_plain {locals base height : Nat}
    (hpop : i ≠ .pop) (hload : ∀ n, i ≠ .load n) (hstore : ∀ n, i ≠ .store n) :
    i.Needs locals base height after v ↔
      (locals + base ≤ v.toNat ∧ v.toNat < locals + height) ∨
        (v.toNat < locals + base ∧ after v) := by
  unfold Needs
  split
  · exact absurd rfl hpop
  · exact absurd rfl (hload _)
  · exact absurd rfl (hstore _)
  · exact Iff.rfl

theorem Instr.Needs.mono {locals base height : Nat} {after after' : UInt32 → Prop}
    (h : ∀ v, after v → after' v) (hv : i.Needs locals base height after v) :
    i.Needs locals base height after' v := by
  unfold Needs at *
  split <;> grind

/-- Only a store frees what is needed after it from being needed before it. -/
theorem Instr.Needs.of_after {locals base height : Nat}
    (hi : ∀ n, i ≠ .store n) (hlt : v.toNat < locals + base) (hv : after v) :
    i.Needs locals base height after v := by
  unfold Needs
  split
  · exact ⟨hlt, hv⟩
  · exact .inr ⟨hlt, hv⟩
  · exact absurd rfl (hi _)
  · exact .inr ⟨hlt, hv⟩

/-- Only a pop does not need what it takes. -/
theorem Instr.Needs.of_operand {locals base height : Nat}
    (hi : i.slot? = none) (hpop : i ≠ .pop) (h1 : locals + base ≤ v.toNat)
    (h2 : v.toNat < locals + height) : i.Needs locals base height after v := by
  unfold Needs
  split
  · exact absurd rfl hpop
  · cases hi
  · cases hi
  · exact .inl ⟨h1, h2⟩

/-- An instruction that fits a frame needs no position beyond the frame. -/
theorem Instr.Needs.lt {ctx : TypingContext} {F F' : Frame} {pops pushes : Nat}
    (hy : i.Yields ctx F F') (he : i.stackEffect ctx.unit = some (pops, pushes))
    (hv : i.Needs F.locals.length (F.stack.length - pops) F.stack.length after v) :
    v.toNat < F.locals.length + F.stack.length := by
  unfold Needs at hv
  split at hv
  · omega
  · cases hy with
    | load hl =>
      obtain ⟨hn, _⟩ := List.getElem?_eq_some_iff.mp hl
      rcases hv with rfl | hv
      · exact Nat.lt_add_right _ hn
      · omega
  · cases hy
    cases he
    simp only [length_cons] at hv ⊢
    omega
  · omega

namespace Liveness

variable {l : Liveness} {i : Instr} {height : Nat} {after live : BitSet} {v : UInt32}

theorem toNat_stackPos {k : Nat} (hk : l.locals + k < 2 ^ 32) :
    (l.stackPos k).toNat = l.locals + k :=
  UInt32.toNat_ofNat_of_lt' hk

theorem contains_foldl_insert {ps : List UInt32} {s : BitSet} :
    (ps.foldl BitSet.insert s).contains v ↔ v ∈ ps ∨ s.contains v := by
  induction ps generalizing s with
  | nil => simp
  | cons p ps ih =>
    rw [foldl_cons, ih, BitSet.contains_insert, mem_cons]
    tauto

theorem mem_stackPositions {base height : Nat} (hn : l.locals + height < 2 ^ 32) :
    v ∈ (range' base (height - base)).map l.stackPos ↔
      l.locals + base ≤ v.toNat ∧ v.toNat < l.locals + height := by
  rw [mem_map]
  constructor
  · rintro ⟨k, hk, rfl⟩
    rw [mem_range'_1] at hk
    rw [toNat_stackPos (by omega)]
    omega
  · rintro ⟨h1, h2⟩
    refine ⟨v.toNat - l.locals, ?_, ?_⟩
    · rw [mem_range'_1]
      omega
    · rw [← UInt32.toNat_inj, toNat_stackPos (by omega)]
      omega

/-- What the analysis computes for an instruction is what the instruction needs. -/
theorem mem_transfer {pops pushes : Nat} (he : i.stackEffect l.unit = some (pops, pushes))
    (hp : pops ≤ height) (hn : l.locals + height < 2 ^ 32)
    (h : l.transfer i height after = .ok live) :
    live.contains v ↔
      i.Needs l.locals (height - pops) height (fun v => after.contains v) v := by
  have hbase : (l.stackPos (height - pops)).toNat = l.locals + (height - pops) :=
    toNat_stackPos (by omega)
  have hkept : ∀ u, (after.below (l.stackPos (height - pops))).contains u ↔
      u.toNat < l.locals + (height - pops) ∧ after.contains u := by
    intro u
    rw [BitSet.contains_below, UInt32.lt_iff_toNat_lt, hbase]
  have heq : ∀ u, u = l.stackPos (height - pops) ↔ u.toNat = l.locals + (height - pops) := by
    intro u
    rw [← UInt32.toNat_inj, hbase]
  unfold transfer at h
  rw [he] at h
  simp only [Attempt.ofOption, bind, Except.bind, pure, Except.pure, Except.ok.injEq] at h
  subst h
  split
  · exact hkept v
  · exact BitSet.contains_insert.trans (or_congr Iff.rfl (hkept v))
  · exact BitSet.contains_insert.trans
      (or_congr (heq v) (BitSet.contains_erase.trans (and_congr Iff.rfl (hkept v))))
  · rename_i hpop hload hstore
    rw [Instr.needs_plain hpop hload hstore]
    exact contains_foldl_insert.trans (or_congr (mem_stackPositions hn) (hkept v))

theorem transfer_succeeds {pops pushes : Nat} (he : i.stackEffect l.unit = some (pops, pushes))
    (height : Nat) (after : BitSet) :
    ∃ live, l.transfer i height after = .ok live := by
  unfold transfer
  rw [he]
  exact ⟨_, rfl⟩

theorem transfer_inReach (ha : after.InReach) (h : l.transfer i height after = .ok live) :
    live.InReach := by
  unfold transfer at h
  obtain ⟨⟨pops, pushes⟩, _, h⟩ := bind_eq_ok.mp h
  obtain rfl := pure_eq_ok.mp h
  have hfold : ∀ (ps : List UInt32) (s : BitSet), s.InReach → (ps.foldl BitSet.insert s).InReach := by
    intro ps
    induction ps with
    | nil => exact fun s hs => hs
    | cons p ps ih => exact fun s hs => ih _ (hs.insert p)
  split
  · exact ha.below _
  · exact (ha.below _).insert _
  · exact ((ha.below _).erase _).insert _
  · exact hfold _ _ (ha.below _)

end Liveness

end Resumable
