import Mathlib.Data.List.Perm.Subperm
import Resumable.CodeUnit.StackBound
import Resumable.Flow.Graph
import Resumable.Proofs.Attempt

/-!
# Heights that are closed under control flow

The heights of a body are found by following every instruction that is reached, once. At the end they
are closed: wherever control can go, the height there is the one that the instruction leaves. The
bound is above all of them, and it is no greater than the number of instructions, since the last one
does not push. The other way round, heights that are closed show that the search succeeds, that it
finds some of them, and that one of them has its bound right behind it.
-/

namespace Resumable

open List

variable {u : CodeUnit}

/-- Heights before instructions that fit together. -/
structure HeightsClosed (u : CodeUnit) (is : List Instr) (handlers : List Handler)
    (η : Nat → Option Nat) : Prop where
  entry : η 0 = some 0
  caught : ∀ h ∈ handlers, η h.target.toNat = some 1
  next : ∀ {i n : Nat}, η i = some n → ∃ instr pops pushes, is[i]? = some instr ∧
    instr.stackEffect u = some (pops, pushes) ∧ pops ≤ n ∧
    ∀ j ∈ Graph.nexts instr i, η j = some (n - pops + pushes)

/-- Heights before instructions that fit together, none of them above a bound. -/
structure HeightsFit (u : CodeUnit) (is : List Instr) (handlers : List Handler)
    (η : Nat → Option Nat) (bound : Nat) : Prop extends HeightsClosed u is handlers η where
  below : ∀ {i n : Nat}, η i = some n → n ≤ bound

/-- The instruction at `pc` makes the height `m` of the height `n`. -/
def CodeUnit.Leaves (u : CodeUnit) (is : List Instr) (pc n m : Nat) : Prop :=
  ∃ instr pops pushes, is[pc]? = some instr ∧ instr.stackEffect u = some (pops, pushes) ∧
    pops ≤ n ∧ m = n - pops + pushes

/-- An instruction adds at most one value to the stack, and none if control does not go on with the
next instruction. -/
theorem Instr.stackEffect_le {i : Instr} {pops pushes : Nat}
    (h : i.stackEffect u = some (pops, pushes)) :
    pushes ≤ pops + 1 ∧ (i.fallsThrough = false → pushes ≤ pops) := by
  cases i with
  | branch test t => cases test <;> cases h <;> exact ⟨by omega, fun _ => by omega⟩
  | invoke n =>
    obtain ⟨s, -, h⟩ := Option.map_eq_some_iff.mp h
    cases h
    refine ⟨?_, fun h => by cases h⟩
    split <;> omega
  | newrec n =>
    obtain ⟨l, -, h⟩ := Option.map_eq_some_iff.mp h
    cases h
    exact ⟨by omega, fun h => by cases h⟩
  | iconst n | sconst n | null | load n | dup =>
    cases h
    exact ⟨by omega, fun h => by cases h⟩
  | _ =>
    cases h
    exact ⟨by omega, fun _ => by omega⟩

namespace Heights

/-- The height before an instruction that was reached. -/
def heightAt (hs : Heights) (pc : Nat) : Option Nat := (hs.before[pc]?).join

/-- What was known stays known. -/
structure Extends (hs hs' : Heights) : Prop where
  known : ∀ {pc n : Nat}, hs.heightAt pc = some n → hs'.heightAt pc = some n
  bound : hs.bound ≤ hs'.bound

/-- The instructions that were reached are those in `done`, which were followed, and those that are
pending. Each instruction in `done` but the last one of the body accounts for one of the bound. -/
structure Reached (size : Nat) (done : List Nat) (hs : Heights) : Prop where
  length : hs.before.length = size
  nodup : (done ++ hs.pending).Nodup
  mem : ∀ {pc : Nat}, pc ∈ done ++ hs.pending ↔ ∃ n, hs.heightAt pc = some n
  below : ∀ {pc n : Nat}, hs.heightAt pc = some n → n ≤ hs.bound
  bound : hs.bound ≤ 1 + (done.filter (· + 1 < size)).length

/-- An instruction that was followed: what it leaves is known wherever control goes. -/
def Followed (u : CodeUnit) (is : List Instr) (hs : Heights) (pc : Nat) : Prop :=
  ∀ n, hs.heightAt pc = some n → ∃ instr pops pushes, is[pc]? = some instr ∧
    instr.stackEffect u = some (pops, pushes) ∧ pops ≤ n ∧
    ∀ j ∈ Graph.nexts instr pc, hs.heightAt j = some (n - pops + pushes)

variable {u : CodeUnit} {is : List Instr} {handlers : List Handler} {hs hs' : Heights}
  {size pc height : Nat} {done pcs : List Nat}

theorem Extends.refl (hs : Heights) : hs.Extends hs := ⟨fun h => h, Nat.le_refl _⟩

theorem Extends.trans {hs'' : Heights} (h : hs.Extends hs') (h' : hs'.Extends hs'') :
    hs.Extends hs'' := ⟨fun hn => h'.known (h.known hn), Nat.le_trans h.bound h'.bound⟩

theorem Followed.extends (hf : Followed u is hs pc) (he : hs.Extends hs')
    (hpc : ∃ n, hs.heightAt pc = some n) : Followed u is hs' pc := by
  obtain ⟨n, hn⟩ := hpc
  intro n' hn'
  obtain rfl : n = n' := Option.some.inj ((he.known hn).symm.trans hn')
  obtain ⟨instr, pops, pushes, hi, heffect, hle, hnext⟩ := hf n hn
  exact ⟨instr, pops, pushes, hi, heffect, hle, fun j hj => he.known (hnext j hj)⟩

theorem heightAt_of_getElem? {known : Option Nat} (h : hs.before[pc]? = some known) :
    hs.heightAt pc = known := by
  unfold heightAt
  rw [h]
  rfl

/-- What is known once an instruction was reached for the first time. -/
theorem heightAt_set (hnone : hs.before[pc]? = some none) (height k : Nat) :
    Heights.heightAt { hs with
      before := hs.before.set pc (some height), pending := pc :: hs.pending } k =
      if k = pc then some height else hs.heightAt k := by
  have hlt : pc < hs.before.length := lt_of_getElem? hnone
  unfold heightAt
  rw [getElem?_set]
  by_cases hk : k = pc
  · rw [if_pos hk.symm, if_pos hlt, if_pos hk]
    rfl
  · rw [if_neg (Ne.symm hk), if_neg hk]

/-! ## Reaching instructions -/

theorem enter_reached (hr : Reached size done hs) (hle : height ≤ hs.bound)
    (h : hs.enter pc height = .ok hs') :
    (Reached size done hs' ∧ height ≤ hs'.bound) ∧ hs.Extends hs' ∧
      hs'.heightAt pc = some height := by
  unfold enter at h
  split at h
  next => cases h
  next hnone =>
    cases h
    have hat := heightAt_set hnone height
    have hunknown : hs.heightAt pc = none := heightAt_of_getElem? hnone
    have hnew : pc ∉ done ++ hs.pending := by
      rw [hr.mem, hunknown]
      simp
    refine ⟨⟨⟨?_, ?_, fun {k} => ?_, fun {k n} hk => ?_, hr.bound⟩, hle⟩,
      ⟨fun {k n} hk => ?_, Nat.le_refl _⟩, ?_⟩
    · rw [length_set, hr.length]
    · exact (perm_middle.nodup_iff).mpr (nodup_cons.mpr ⟨hnew, hr.nodup⟩)
    · rw [perm_middle.mem_iff, mem_cons, hr.mem, hat]
      split <;> simp_all
    · rw [hat] at hk
      split at hk
      next =>
        cases hk
        exact hle
      next => exact hr.below hk
    · rw [hat]
      split
      next heq =>
        rw [heq, hunknown] at hk
        cases hk
      next => exact hk
    · rw [hat, if_pos rfl]
  next known hknown =>
    split at h
    next heq =>
      cases h
      exact ⟨⟨hr, hle⟩, .refl hs, heq ▸ heightAt_of_getElem? hknown⟩
    next => cases h

theorem enterAll_reached (hr : Reached size done hs) (hle : height ≤ hs.bound)
    (h : hs.enterAll pcs height = .ok hs') :
    (Reached size done hs' ∧ height ≤ hs'.bound) ∧ hs.Extends hs' ∧
      ∀ pc ∈ pcs, hs'.heightAt pc = some height :=
  foldlM_forall (fun hs => Reached size done hs ∧ height ≤ hs.bound) Extends
    (fun pc hs => hs.heightAt pc = some height) Extends.refl Extends.trans
    (fun he hk => he.known hk) (fun _ _ _ _ hc h => enter_reached hc.1 hc.2 h) ⟨hr, hle⟩ h

/-- The bound after another instruction was followed. -/
theorem Reached.raise {n pops pushes : Nat} {instr : Instr} {pending : List Nat}
    (hr : Reached is.length done hs) (hpending : hs.pending = pc :: pending)
    (hn : hs.heightAt pc = some n) (heffect : instr.stackEffect u = some (pops, pushes))
    (hle : pops ≤ n) (hlast : is.length ≤ pc + 1 → instr.fallsThrough = false) :
    Reached is.length (pc :: done)
      { hs with pending, bound := max hs.bound (n - pops + pushes) } := by
  have hperm : Perm (pc :: done ++ pending) (done ++ hs.pending) := by
    rw [hpending]
    exact perm_middle.symm
  obtain ⟨hone, hnone⟩ := Instr.stackEffect_le heffect
  have hbelow := hr.below hn
  have hbound := hr.bound
  refine ⟨hr.length, hperm.nodup_iff.mpr hr.nodup, fun {k} => hperm.mem_iff.trans hr.mem,
    fun {k m} hk => Nat.le_trans (hr.below hk) (Nat.le_max_left _ _), ?_⟩
  show max hs.bound (n - pops + pushes) ≤ _
  by_cases hpc : pc + 1 < is.length
  · rw [filter_cons_of_pos (by simpa using hpc), length_cons]
    omega
  · rw [filter_cons_of_neg (by simpa using hpc)]
    have := hnone (hlast (by omega))
    omega

/-- **Following an instruction keeps what is known,** and it is followed then. -/
theorem follow_reached {pending : List Nat} (hr : Reached is.length done hs)
    (hpending : hs.pending = pc :: pending) (h : follow u is { hs with pending } pc = .ok hs') :
    Reached is.length (pc :: done) hs' ∧ hs.Extends hs' ∧ Followed u is hs' pc := by
  unfold follow at h
  obtain ⟨instr, hinstr, h⟩ := bind_eq_ok.mp h
  obtain ⟨n, hn, h⟩ := bind_eq_ok.mp h
  obtain ⟨⟨pops, pushes⟩, heffect, h⟩ := bind_eq_ok.mp h
  rw [Attempt.ofOption_eq_ok] at hinstr hn heffect
  have hn : hs.heightAt pc = some n := hn
  dsimp only at h
  split at h
  next => cases h
  next hle =>
    obtain ⟨hs₁, htargets, h⟩ := bind_eq_ok.mp h
    have hlast : is.length ≤ pc + 1 → instr.fallsThrough = false := by
      intro hlen
      rw [if_pos hlen] at h
      cases hfalls : instr.fallsThrough with
      | true =>
        rw [hfalls] at h
        cases h
      | false => rfl
    have hraised := hr.raise hpending hn heffect (Nat.not_lt.mp hle) hlast
    obtain ⟨⟨hr₁, hle₁⟩, he₁, htargets⟩ := enterAll_reached hraised (Nat.le_max_right _ _) htargets
    have hstart : hs.Extends { hs with pending, bound := max hs.bound (n - pops + pushes) } :=
      ⟨fun hk => hk, Nat.le_max_left _ _⟩
    have hfollowed {hs' : Heights} (he : hs₁.Extends hs')
        (hfalls : instr.fallsThrough → hs'.heightAt (pc + 1) = some (n - pops + pushes)) :
        Followed u is hs' pc := by
      intro m hm
      obtain rfl : n = m := Option.some.inj (((hstart.trans he₁).trans he).known hn |>.symm.trans hm)
      refine ⟨instr, pops, pushes, hinstr, heffect, Nat.not_lt.mp hle, fun j hj => ?_⟩
      rcases mem_append.mp hj with hj | hj
      · split at hj
        next hf =>
          obtain rfl := mem_singleton.mp hj
          exact hfalls hf
        next => cases hj
      · exact he.known (htargets j hj)
    split at h
    next hf =>
      split at h
      next => cases h
      next =>
        obtain ⟨⟨hr₂, _⟩, he₂, hnext⟩ := enter_reached hr₁ hle₁ h
        exact ⟨hr₂, (hstart.trans he₁).trans he₂, hfollowed he₂ fun _ => hnext⟩
    next hf =>
      cases h
      exact ⟨hr₁, hstart.trans he₁, hfollowed (.refl _) fun h => absurd h hf⟩

/-! ## Following all instructions -/

theorem Reached.lt (hr : Reached size done hs) (h : pc ∈ done ++ hs.pending) : pc < size := by
  obtain ⟨n, hn⟩ := hr.mem.mp h
  rw [heightAt, Option.join_eq_some_iff] at hn
  exact hr.length ▸ lt_of_getElem? hn

/-- Instructions that were reached are not more than those of the body. -/
theorem Reached.length_le (hr : Reached size done hs) :
    done.length + hs.pending.length ≤ size := by
  have hsub : (done ++ hs.pending) ⊆ range size := fun pc hpc =>
    mem_range.mpr (hr.lt hpc)
  have := (subperm_of_subset hr.nodup hsub).length_le
  rwa [length_append, length_range] at this

theorem Reached.bound_le (hr : Reached size done hs) (hpos : 0 < size) : hs.bound ≤ size := by
  have hsub : done.filter (· + 1 < size) ⊆ range (size - 1) := by
    intro pc hpc
    have := (mem_filter.mp hpc).2
    rw [decide_eq_true_eq] at this
    exact mem_range.mpr (by omega)
  have hnodup : (done.filter (· + 1 < size)).Nodup :=
    (nodup_append.mp hr.nodup).1.filter _
  have hle := (subperm_of_subset hnodup hsub).length_le
  have hbound := hr.bound
  rw [length_range] at hle
  omega

/-- With as many rounds as there are instructions left, all that are reached are followed. -/
theorem settle_reached {rounds : Nat} (hr : Reached is.length done hs)
    (hrounds : is.length ≤ done.length + rounds)
    (hdone : ∀ pc ∈ done, Followed u is hs pc) (h : settle u is rounds hs = .ok hs') :
    ∃ done', Reached is.length done' hs' ∧ hs'.pending = [] ∧ hs.Extends hs' ∧
      ∀ pc ∈ done', Followed u is hs' pc := by
  induction rounds generalizing done hs with
  | zero =>
    cases h
    have := hr.length_le
    exact ⟨done, hr, eq_nil_of_length_eq_zero (by omega), .refl _, hdone⟩
  | succ rounds ih =>
    unfold settle at h
    split at h
    next hpending =>
      cases h
      exact ⟨done, hr, hpending, .refl _, hdone⟩
    next pc pending hpending =>
      obtain ⟨hs₁, hfollow, h⟩ := bind_eq_ok.mp h
      obtain ⟨hr₁, he₁, hf₁⟩ := follow_reached hr hpending hfollow
      have hdone₁ : ∀ k ∈ pc :: done, Followed u is hs₁ k := by
        refine forall_mem_cons.mpr ⟨hf₁, fun k hk => (hdone k hk).extends he₁ ?_⟩
        exact hr.mem.mp (mem_append_left _ hk)
      obtain ⟨done', hr', hp', he', hd'⟩ := ih hr₁ (by rw [length_cons]; omega) hdone₁ h
      exact ⟨done', hr', hp', he₁.trans he', hd'⟩

theorem heightAt_empty {first k : Nat} :
    Heights.heightAt { before := is.map fun _ => none, bound := first } k = none := by
  show ((is.map fun _ => none)[k]?).join = none
  rw [getElem?_map]
  cases is[k]? <;> rfl

theorem entries_reached (h : entries is handlers = .ok hs) :
    Reached is.length [] hs ∧ hs.heightAt 0 = some 0 ∧
      ∀ h ∈ handlers, hs.heightAt h.target.toNat = some 1 := by
  unfold entries at h
  obtain ⟨hs₁, hzero, h⟩ := bind_eq_ok.mp h
  have hempty : Reached is.length []
      { before := is.map fun _ => none, bound := if handlers.isEmpty then 0 else 1 } := by
    refine ⟨length_map _, nodup_nil, fun {k} => ?_, fun {k n} hk => ?_, ?_⟩
    · rw [heightAt_empty]
      simp
    · rw [heightAt_empty] at hk
      cases hk
    · show (if handlers.isEmpty then 0 else 1) ≤ 1
      split <;> omega
  obtain ⟨⟨hr₁, _⟩, he₁, h0⟩ := enter_reached hempty (Nat.zero_le _) hzero
  cases handlers with
  | nil =>
    cases h
    exact ⟨hr₁, h0, fun h hh => by cases hh⟩
  | cons g gs =>
    have hone : 1 ≤ hs₁.bound := he₁.bound
    obtain ⟨⟨hr₂, _⟩, he₂, hall⟩ := enterAll_reached hr₁ hone h
    exact ⟨hr₂, he₂.known h0, fun h hh => hall _ (mem_map.mpr ⟨h, hh, rfl⟩)⟩

/-! ## Searches that succeed -/

/-- What was found are heights `η`, and the bound is the first one or behind one of them. -/
structure Traced (u : CodeUnit) (is : List Instr) (η : Nat → Option Nat) (first : Nat)
    (hs : Heights) : Prop where
  length : hs.before.length = is.length
  known : ∀ {pc n : Nat}, hs.heightAt pc = some n → η pc = some n
  pending : ∀ pc ∈ hs.pending, ∃ n, hs.heightAt pc = some n
  bound : hs.bound = first ∨ ∃ pc n, η pc = some n ∧ u.Leaves is pc n hs.bound

/-- An instruction of known effect is followed by reaching where it leads. -/
theorem follow_eq {n pops pushes : Nat} {instr : Instr} {pending : List Nat}
    (hi : is[pc]? = some instr) (hn : hs.heightAt pc = some n)
    (heffect : instr.stackEffect u = some (pops, pushes)) (hle : pops ≤ n) :
    follow u is { hs with pending } pc = (do
      let hs ← Heights.enterAll { hs with pending, bound := max hs.bound (n - pops + pushes) }
        (instr.targets.map UInt32.toNat) (n - pops + pushes)
      if instr.fallsThrough then
        if is.length ≤ pc + 1 then fault (.fallsOff pc) else hs.enter (pc + 1) (n - pops + pushes)
      else return hs) := by
  unfold heightAt at hn
  simp only [follow, hi, hn, heffect, Attempt.ofOption, if_neg (Nat.not_lt.mpr hle), bind,
    Except.bind]

section

variable {η : Nat → Option Nat} {first : Nat} (hη : HeightsClosed u is handlers η)

include hη

theorem enter_traced (ht : Traced u is η first hs) (hpc : η pc = some height) :
    ∃ hs', hs.enter pc height = .ok hs' ∧ Traced u is η first hs' := by
  obtain ⟨instr, -, -, hi, -⟩ := hη.next hpc
  have hlt : pc < hs.before.length := ht.length ▸ lt_of_getElem? hi
  obtain ⟨known, hknown⟩ : ∃ known, hs.before[pc]? = some known :=
    ⟨_, getElem?_eq_getElem hlt⟩
  unfold enter
  rw [hknown]
  cases known with
  | none =>
    have hat := heightAt_set hknown height
    refine ⟨_, rfl, (length_set ..).trans ht.length, fun {k n} hk => ?_,
      forall_mem_cons.mpr ⟨⟨height, by rw [hat, if_pos rfl]⟩, fun k hk => ?_⟩, ht.bound⟩
    · rw [hat] at hk
      split at hk
      next heq => rw [heq, hpc, hk]
      next => exact ht.known hk
    · obtain ⟨n, hn⟩ := ht.pending k hk
      rw [hat]
      split
      next => exact ⟨height, rfl⟩
      next => exact ⟨n, hn⟩
  | some known =>
    have heq : known = height :=
      Option.some.inj ((ht.known (heightAt_of_getElem? hknown)).symm.trans hpc)
    exact ⟨hs, if_pos heq, ht⟩

theorem enterAll_traced (ht : Traced u is η first hs) (hpcs : ∀ pc ∈ pcs, η pc = some height) :
    ∃ hs', hs.enterAll pcs height = .ok hs' ∧ Traced u is η first hs' :=
  foldlM_succeeds (Traced u is η first) (fun pc hpc _ ht => enter_traced hη ht (hpcs pc hpc)) ht

theorem follow_traced {pending : List Nat} (ht : Traced u is η first hs)
    (hpending : hs.pending = pc :: pending) :
    ∃ hs', follow u is { hs with pending } pc = .ok hs' ∧ Traced u is η first hs' := by
  obtain ⟨⟨n, hn⟩, hrest⟩ := forall_mem_cons.mp (hpending ▸ ht.pending)
  obtain ⟨instr, pops, pushes, hi, heffect, hle, hnext⟩ := hη.next (ht.known hn)
  have hraised : Traced u is η first
      { hs with pending, bound := max hs.bound (n - pops + pushes) } := by
    refine ⟨ht.length, ht.known, hrest, ?_⟩
    rcases Nat.le_total hs.bound (n - pops + pushes) with hmax | hmax
    · right
      exact ⟨pc, n, ht.known hn, instr, pops, pushes, hi, heffect, hle, Nat.max_eq_right hmax⟩
    · rw [Nat.max_eq_left hmax]
      exact ht.bound
  have htargets : ∀ j ∈ instr.targets.map UInt32.toNat, η j = some (n - pops + pushes) :=
    fun j hj => hnext j (mem_append_right _ hj)
  obtain ⟨hs₁, hentered, ht₁⟩ := enterAll_traced hη hraised htargets
  cases hfalls : instr.fallsThrough with
  | false =>
    refine ⟨hs₁, ?_, ht₁⟩
    rw [follow_eq hi hn heffect hle, hentered]
    exact if_neg (by rw [hfalls]; exact Bool.false_ne_true)
  | true =>
    have hthere := hnext (pc + 1) (by simp [Graph.nexts, hfalls])
    obtain ⟨_, -, -, hi', -⟩ := hη.next hthere
    have hlt := lt_of_getElem? hi'
    obtain ⟨hs₂, hentered₂, ht₂⟩ := enter_traced hη ht₁ hthere
    refine ⟨hs₂, ?_, ht₂⟩
    rw [follow_eq hi hn heffect hle, hentered, ← hentered₂]
    exact (if_pos hfalls).trans (if_neg (by omega))

theorem settle_traced {rounds : Nat} (ht : Traced u is η first hs) :
    ∃ hs', settle u is rounds hs = .ok hs' ∧ Traced u is η first hs' := by
  induction rounds generalizing hs with
  | zero => exact ⟨hs, rfl, ht⟩
  | succ rounds ih =>
    unfold settle
    split
    next => exact ⟨hs, rfl, ht⟩
    next pc pending hpending =>
      obtain ⟨hs₁, hfollow, ht₁⟩ := follow_traced hη ht hpending
      obtain ⟨hs', hsettle, ht'⟩ := ih ht₁
      exact ⟨hs', bind_eq_ok.mpr ⟨hs₁, hfollow, hsettle⟩, ht'⟩

theorem entries_traced :
    ∃ hs, entries is handlers = .ok hs ∧
      Traced u is η (if handlers.isEmpty then 0 else 1) hs := by
  have hstart : Traced u is η (if handlers.isEmpty then 0 else 1)
      { before := is.map fun _ => none, bound := if handlers.isEmpty then 0 else 1 } := by
    refine ⟨length_map _, fun {pc n} hn => ?_, forall_mem_nil _, Or.inl rfl⟩
    rw [heightAt_empty] at hn
    cases hn
  obtain ⟨hs₁, hzero, ht₁⟩ := enter_traced hη hstart hη.entry
  obtain ⟨hs, hcaught, ht⟩ := enterAll_traced hη ht₁ (forall_mem_map.mpr hη.caught)
  exact ⟨hs, bind_eq_ok.mpr ⟨hs₁, hzero, hcaught⟩, ht⟩

end

end Heights

/-- Heights that are closed are found, some of them at least. -/
theorem CodeUnit.heights_of_closed {is : List Instr} {handlers : List Handler}
    {η : Nat → Option Nat} (hη : HeightsClosed u is handlers η) :
    ∃ hs, u.heights is handlers = .ok hs ∧
      hs.Traced u is η (if handlers.isEmpty then 0 else 1) := by
  obtain ⟨hs₁, hentries, ht₁⟩ := Heights.entries_traced hη
  obtain ⟨hs, hsettle, ht⟩ := Heights.settle_traced hη ht₁
  exact ⟨hs, bind_eq_ok.mpr ⟨hs₁, hentries, hsettle⟩, ht⟩

/-- **The heights of a body fit together,** and their bound is no greater than the body is long. -/
theorem CodeUnit.heightsFit_of_heights {is : List Instr} {handlers : List Handler}
    {hs : Heights} (h : u.heights is handlers = .ok hs) :
    HeightsFit u is handlers hs.heightAt hs.bound ∧ hs.bound ≤ is.length := by
  obtain ⟨hs₁, hentries, h⟩ := bind_eq_ok.mp h
  obtain ⟨hr, hzero, hcaught⟩ := Heights.entries_reached hentries
  obtain ⟨done, hr', hpending, he, hdone⟩ :=
    Heights.settle_reached hr (by simp) (fun _ hpc => by cases hpc) h
  have hlt := hr'.lt (hr'.mem.mpr ⟨0, he.known hzero⟩)
  refine ⟨⟨⟨he.known hzero, fun h hh => he.known (hcaught h hh), fun {i n} hn => ?_⟩,
    hr'.below⟩, hr'.bound_le (by omega)⟩
  have hmem := hr'.mem.mpr ⟨n, hn⟩
  rw [hpending, append_nil] at hmem
  exact hdone i hmem n hn

end Resumable
