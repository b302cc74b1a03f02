import Resumable.Proofs.Emission.Additions
import Resumable.Proofs.Emission.Sealed

/-!
# What protects emitted code

`shielded` writes next to every instruction what the handlers do that cover it, in the order of the
handler table, so that a statement about it says at once what is covered and what is not. In both
functions of a state machine the copy of an instruction, as long as it may be, is covered by what
covered the instruction. In a continuation the taking of an outcome is covered by what covered the
point. All the rest is bare.
-/

namespace Resumable

open Fragment Labelled List

/-- Code from place `pc` on, with the handlers that cover it. -/
def shielded (hs : List Handler) : Nat → List Instr → List (Instr × List Cover)
  | _, [] => []
  | pc, i :: is => (i, coversAt hs pc) :: shielded hs (pc + 1) is

/-- Code with the same handlers all over. -/
def under (covers : List Cover) (is : List Instr) : List (Instr × List Cover) :=
  is.map fun i => (i, covers)

section

variable {hs : List Handler} {pc : Nat} {is js : List Instr} {covers : List Cover}

theorem shielded_append :
    shielded hs pc (is ++ js) = shielded hs pc is ++ shielded hs (pc + is.length) js := by
  induction is generalizing pc with
  | nil => rfl
  | cons i is ih =>
    rw [cons_append, shielded, shielded, ih, cons_append, length_cons,
      Nat.add_right_comm, Nat.add_assoc]

theorem shielded_eq_under (h : ∀ q, pc ≤ q → q < pc + is.length → coversAt hs q = covers) :
    shielded hs pc is = under covers is := by
  induction is generalizing pc with
  | nil => rfl
  | cons i is ih =>
    rw [length_cons] at h
    rw [shielded, h pc (Nat.le_refl _) (by omega), ih fun q h1 h2 => h q (by omega) (by omega)]
    rfl

/-- A row of parts is covered part by part. -/
theorem shielded_flatMap {α : Type} {row : List α} {part : α → List Instr}
    {part' : α → List (Instr × List Cover)}
    (h : ∀ {j : Nat} {a : α}, row[j]? = some a →
      shielded hs (pc + ((row.take j).flatMap part).length) (part a) = part' a) :
    shielded hs pc (row.flatMap part) = row.flatMap part' := by
  induction row generalizing pc with
  | nil => rfl
  | cons a row ih =>
    have hhead := h (j := 0) rfl
    rw [flatMap_cons, flatMap_cons, shielded_append]
    refine congrArg₂ (· ++ ·) hhead (ih fun {j b} hj => ?_)
    have := h (j := j + 1) hj
    rwa [take_succ_cons, flatMap_cons, length_append, ← Nat.add_assoc] at this

end

namespace Emission

variable {e : Emission} {included : List Nat} {handlers : List Handler} {splits : List Int}
  {machine : Option UInt32} {pre : List (Item Place)} {rest : List Stop}
  {extra : List (LabelledHandler Place)} {frag : Fragment Place} {is : List Instr}
  {hs : List Handler}

/-- What covers the copy of instruction `i` in code where copies stand at `pos`. -/
def moved (e : Emission) (pos : Nat → Nat) (i : Nat) : List Cover :=
  (coversAt e.function.handlers i).map (Cover.move pos)

/-- The copies of the included instructions, each one covered like its instruction. -/
def shieldedCopies (e : Emission) (included : List Nat) (address : Place → UInt32)
    (pos : Nat → Nat) : List (Instr × List Cover) :=
  (e.kept included e.body.length).flatMap fun i =>
    under (e.moved pos i) ((e.copied i).map (Labelled.toInstr address))

/-- The code of a continuation that chooses a stub. -/
def dispatchCode (e : Emission) (address : Place → UInt32) : List Instr :=
  [.load (e.home 1), .switch 1 (e.stops.map fun s => address (.stub s.number)) (address .invalid)] ++
    e.invalidCode

/-- The code of a continuation before the copies. Outcomes are taken under the handlers of their
points. -/
def shieldedOpening (e : Emission) (address : Place → UInt32) (pos : Nat → Nat) :
    List (Instr × List Cover) :=
  under [] (e.moveCode ++ e.dispatchCode address) ++
    e.stops.flatMap fun s => under [] (e.restoreCode s) ++
      under (e.moved pos s.point.instr) (e.joinCode s) ++
        under [] [.goto (address
          (.blockStart (e.plan.analysis.graph.blockNumber (s.point.instr + 1))))]

/-! ## Copies and the code behind them -/

theorem codes_slowPaths {address : Place → UInt32} :
    (codes (rest.flatMap (e.slowPath machine))).map (toInstr address) =
      rest.flatMap (e.slowCode machine) := by
  rw [codes_flatMap, map_flatMap]
  simp only [slowPath_eq, codes_mark, codes_plain, toInstr_map_plain]

section

variable (ha : e.Arranged included machine pre rest extra frag)
  (hd : e.graph.Divides e.body e.function.handlers splits)
  (hfin : frag.finish = .ok (is, hs)) (hsize : is.length < 2 ^ 32)
  (hextra : ∀ q, (codes pre).length ≤ q →
    coversAt (extra.map (LabelledHandler.toHandler frag.address)) q = [])

include ha hd hfin hsize hextra

/-- Instructions are copied together with what covers them. -/
theorem Arranged.shielded_copies :
    shielded hs (codes pre).length
        (((e.kept included e.body.length).flatMap e.copied).map (toInstr frag.address)) =
      e.shieldedCopies included frag.address fun t => (codes pre).length + e.offset included t := by
  suffices h : ∀ n ≤ e.body.length, shielded hs (codes pre).length
      (((e.kept included n).flatMap e.copied).map (toInstr frag.address)) =
      (e.kept included n).flatMap fun i =>
        under (e.moved (fun t => (codes pre).length + e.offset included t) i)
          ((e.copied i).map (toInstr frag.address)) from h _ (Nat.le_refl _)
  intro n
  induction n with
  | zero => exact fun _ => rfl
  | succ n ih =>
    intro hn
    rw [kept_succ]
    split
    next hin =>
      have hlast : shielded hs ((codes pre).length + e.offset included n)
          ((e.copied n).map (toInstr frag.address)) =
          under (e.moved (fun t => (codes pre).length + e.offset included t) n)
            ((e.copied n).map (toInstr frag.address)) := by
        refine shielded_eq_under fun q h1 h2 => ?_
        rw [length_map] at h2
        rw [(ha.coversAt_split hd hfin hsize).2 hin hn h1 (by rw [offset_succ hin]; omega),
          hextra q (by omega), append_nil]
        rfl
      rw [flatMap_append, map_append, shielded_append, ih (by omega), flatMap_append,
        length_map, flatMap_singleton, flatMap_singleton]
      exact congrArg _ hlast
    next => rw [append_nil, ih (by omega)]

/-- **Copies are covered like what they are copies of,** and the code behind them is bare. -/
theorem Arranged.shielded_behind :
    shielded hs (codes pre).length ((codes (e.copyBlocks included) ++
        codes (rest.flatMap (e.slowPath machine))).map (toInstr frag.address)) =
      e.shieldedCopies included frag.address (fun t => (codes pre).length + e.offset included t) ++
        under [] (rest.flatMap (e.slowCode machine)) := by
  have hslow : shielded hs ((codes pre).length + e.offset included e.body.length)
      (rest.flatMap (e.slowCode machine)) = under [] (rest.flatMap (e.slowCode machine)) := by
    refine shielded_eq_under fun q h1 _ => ?_
    rw [(ha.coversAt_split (i := 0) hd hfin hsize).1 (.inr h1), hextra q (by omega)]
  rw [map_append, shielded_append, codes_copyBlocks hd,
    ha.shielded_copies hd hfin hsize hextra, length_map, codes_slowPaths]
  exact congrArg _ hslow

end

/-! ## The code before copies -/

/-- Between two stubs, only the taking of an outcome is covered by handlers of stubs. -/
theorem outside_joins (hnum : ∀ {k : Nat} {s : Stop}, e.stops[k]? = some s → s.number = k) {j q : Nat}
    {s : Stop} (hj : e.stops[j]? = some s) (h1 : e.stubAt j ≤ q) (h2 : q < e.stubAt (j + 1))
    (hown : q < e.joinAt s ∨ e.joinAt s + (e.joinCode s).length ≤ q) :
    ∀ s ∈ e.stops, q < e.joinAt s ∨ e.joinAt s + (e.joinCode s).length ≤ q := by
  intro s' hs'
  obtain ⟨k, hk⟩ := mem_iff_getElem?.mp hs'
  have hsucc := stubAt_succ hk
  rcases Nat.lt_trichotomy k j with hlt | rfl | hlt
  · have := stubAt_mono (e := e) (show k + 1 ≤ j from hlt)
    unfold joinAt
    rw [hnum hk]
    omega
  · rw [hj] at hk
    cases hk
    exact hown
  · have := stubAt_mono (e := e) (show j + 1 ≤ k from hlt)
    unfold joinAt
    rw [hnum hk]
    omega

section

variable
  (ha : e.Arranged included machine e.opening rest (e.stops.flatMap e.joinHandlers) frag)
  (hd : e.graph.Divides e.body e.function.handlers splits)
  (hfin : frag.finish = .ok (is, hs)) (hsize : is.length < 2 ^ 32)
  (hnum : ∀ {k : Nat} {s : Stop}, e.stops[k]? = some s → s.number = k)
  (hin : ∀ s ∈ e.stops, ∀ h ∈ e.function.handlers, h.covers s.point.instr →
    e.graph.blockNumber h.target.toNat ∈ included)

include ha hd hfin hsize hnum hin

theorem shielded_stub {j : Nat} {s : Stop} (hj : e.stops[j]? = some s) :
    shielded hs (e.stubAt j) ((codes (e.stub s)).map (toInstr frag.address)) =
      under [] (e.restoreCode s) ++
        under (e.moved (fun t => (codes e.opening).length + e.offset included t) s.point.instr)
          (e.joinCode s) ++
        under [] [.goto (frag.address
          (.blockStart (e.graph.blockNumber (s.point.instr + 1))))] := by
  have hmem := mem_of_getElem? hj
  have hsucc := stubAt_succ hj
  have hjoin : e.joinAt s = e.stubAt j + (e.restoreCode s).length := by
    unfold joinAt
    rw [hnum hj]
  have hle := stubAt_mono (e := e)
    (show j + 1 ≤ e.stops.length from lt_of_getElem? hj)
  rw [← length_opening] at hle
  have hbare : ∀ q, e.stubAt j ≤ q → q < e.stubAt (j + 1) →
      (q < e.joinAt s ∨ e.joinAt s + (e.joinCode s).length ≤ q) → coversAt hs q = [] :=
    fun q h1 h2 hown => (coversAt_opening ha hd hfin hsize hnum hin).2 (by omega)
      (outside_joins hnum hj h1 h2 hown)
  rw [codes_stub, map_append, map_append, toInstr_map_plain, toInstr_map_plain,
    shielded_append, shielded_append]
  refine congrArg₂ (· ++ ·) (congrArg₂ (· ++ ·) ?_ ?_) ?_
  · exact shielded_eq_under fun q h1 h2 => hbare q h1 (by omega) (by omega)
  · exact shielded_eq_under fun q h1 h2 =>
      (coversAt_opening ha hd hfin hsize hnum hin).1 s hmem (by omega) (by omega)
  · refine shielded_eq_under fun q h1 h2 => hbare q ?_ ?_ ?_
    all_goals simp only [length_append, length_map, length_singleton] at h1 h2
    all_goals omega

/-- **What covers the beginning of a continuation.** -/
theorem shielded_opening :
    shielded hs 0 ((codes e.opening).map (toInstr frag.address)) =
      e.shieldedOpening frag.address fun t => (codes e.opening).length + e.offset included t := by
  have hcode : (e.moveCode.map Labelled.plain ++ codes e.dispatch).map
      (toInstr frag.address) = e.moveCode ++ e.dispatchCode frag.address := by
    rw [map_append, toInstr_map_plain, codes_dispatch, map_append, toInstr_map_plain,
      map_cons, map_cons, toInstr, toInstr, map_map]
    rfl
  have hlen : (e.moveCode ++ e.dispatchCode frag.address).length = 13 := rfl
  have hfirst : 13 ≤ (codes e.opening).length := by
    rw [length_opening]
    exact Nat.le_add_right _ _
  conv_lhs => rw [codes_opening, map_append, shielded_append, hcode, hlen, codes_flatMap,
    map_flatMap]
  refine congrArg₂ (· ++ ·) (shielded_eq_under fun q _ h2 => ?_) (shielded_flatMap fun {j s} hj => ?_)
  · refine (coversAt_opening ha hd hfin hsize hnum hin).2 (by omega) fun s _ => .inl ?_
    unfold joinAt stubAt
    omega
  · have hplace : e.stubAt j = 0 + 13 + ((e.stops.take j).flatMap fun s =>
        (codes (e.stub s)).map (toInstr frag.address)).length := by
      unfold stubAt
      rw [codes_flatMap, ← map_flatMap, length_map, Nat.zero_add]
    rw [← hplace]
    exact shielded_stub ha hd hfin hsize hnum hin hj

end

/-! ## Both functions -/

/-- Where the copy of an instruction stands if the copies start at `start`. -/
def copyAt (e : Emission) (included : List Nat) (start i : Nat) : Nat := start + e.offset included i

/-- The function itself: copies, and the bare code that captures what is live. -/
def shieldedSuspendable (e : Emission) (address : Place → UInt32) : List (Instr × List Cover) :=
  e.shieldedCopies e.plan.segments.flatten address (e.copyAt e.plan.segments.flatten 0) ++
    under [] (e.stops.flatMap (e.slowCode none))

/-- The continuation: its beginning, copies, and the bare code that captures what is live. -/
def shieldedContinuation (e : Emission) (address : Place → UInt32) : List (Instr × List Cover) :=
  let included := e.plan.segments.tail.flatten
  let pos := e.copyAt included (codes e.opening).length
  e.shieldedOpening address pos ++ e.shieldedCopies included address pos ++
    under [] ((e.stops.filter (e.hasStop included)).flatMap (e.slowCode (some (e.home 0))))

/-- Copies of the included instructions stand at `pos`, and handlers lead to copies. -/
structure Carries (e : Emission) (included : List Nat) (pos : Nat → Nat) (address : Place → UInt32)
    (code : List Instr) : Prop where
  sits : ∀ {i : Nat}, i < e.body.length → e.plan.analysis.graph.blockNumber i ∈ included →
    Sits code (pos i) ((e.copied i).map (Labelled.toInstr address))
  entry : ∀ {i : Nat} {h : Handler}, i < e.body.length →
    e.plan.analysis.graph.blockNumber i ∈ included ∨ (∃ p ∈ e.plan.points, p.instr = i) →
    h ∈ e.function.handlers → h.covers i →
    e.plan.analysis.graph.blockNumber h.target.toNat ∈ included

/-- A state machine whose handler tables protect what the table of the function protected. -/
structure Remapped (e : Emission) : Prop where
  suspendable : ∃ frag code hs, e.suspendable = .ok frag ∧ frag.finish = .ok (code, hs) ∧
    e.Carries e.plan.segments.flatten (e.copyAt e.plan.segments.flatten 0) frag.address code ∧
    (code.length < 2 ^ 32 → shielded hs 0 code = e.shieldedSuspendable frag.address)
  continuation : ∃ frag code hs, e.continuation = .ok frag ∧ frag.finish = .ok (code, hs) ∧
    e.Carries e.plan.segments.tail.flatten
      (e.copyAt e.plan.segments.tail.flatten (codes e.opening).length) frag.address code ∧
    (code.length < 2 ^ 32 → shielded hs 0 code = e.shieldedContinuation frag.address)
  /-- These are the code and the tables of the functions that are made. -/
  made : ∀ {a : Analyzer} {g c : Func}, e.functions a = .ok (g, c) →
    (∃ frag code, e.suspendable = .ok frag ∧ frag.finish = .ok (code, g.handlers) ∧
      g.code = Instr.encodeAll code) ∧
    ∃ frag code, e.continuation = .ok frag ∧ frag.finish = .ok (code, c.handlers) ∧
      c.code = Instr.encodeAll code

theorem Arranged.carries (ha : e.Arranged included machine pre rest extra frag)
    (hd : e.graph.Divides e.body e.function.handlers splits)
    (hfin : frag.finish = .ok (is, hs))
    (hclosed : e.graph.Closed (fun _ => false) included)
    (hpoints : ∀ p ∈ e.plan.points, ∀ h ∈ e.function.handlers, h.covers p.instr →
      e.graph.blockNumber h.target.toNat ∈ included) :
    e.Carries included (e.copyAt included (codes pre).length) frag.address is where
  sits hlt hi := ha.sits_copied hd hfin hi hlt
  entry := by
    rintro i h hlt (hi | ⟨p, hp, rfl⟩) hh hcov
    · exact Plan.caught_of_closed hd hclosed hlt hi hh hcov
    · exact hpoints p hp h hh hcov

theorem remapped_of_make {a : Analyzer} {sites : List Nat}
    (h : Plan.make a e.function e.body sites = .ok e.plan) (hne : e.plan.points ≠ [])
    (hn : e.Numbered) : e.Remapped := by
  have ho := Plan.outlined_of_make h
  have hseg := Plan.segmented_of_make h hne
  have hd := ho.divides
  have hall := ho.closed_flatten hne
  have hresumed : ∀ p ∈ e.plan.points, ∀ h ∈ e.function.handlers, h.covers p.instr →
      e.graph.blockNumber h.target.toNat ∈ e.plan.segments.tail.flatten :=
    fun p hp h hh hcov => hseg.root_mem hp (.inr ⟨h, hh, hcov, rfl⟩)
  have htail : ∀ b ∈ e.plan.segments.tail.flatten, b ∈ e.plan.segments.flatten := by
    intro b hb
    obtain ⟨segment, hsegment, hb⟩ := mem_flatten.mp hb
    exact mem_flatten.mpr ⟨segment, mem_of_mem_tail hsegment, hb⟩
  refine ⟨?_, ?_, ?_⟩
  · obtain ⟨frag, ⟨code, hs⟩, hfrag, hfin, hitems⟩ := exists_suspendable hd hall hn
    have ha := arranged_of_suspendable hfrag hn.nodup
    refine ⟨frag, code, hs, hfrag, hfin, ?_, fun hsize => ?_⟩
    · exact ha.carries hd hfin hall fun p hp h hh hcov => htail _ (hresumed p hp h hh hcov)
    · have hcode : code = (codes frag.items).map (toInstr frag.address) :=
        (finish_eq_ok.mp hfin).1.2.symm
      rw [hitems, codes_append] at hcode
      rw [hcode]
      exact ha.shielded_behind hd hfin hsize fun q _ => rfl
  · obtain ⟨frag, ⟨code, hs⟩, hfrag, hfin⟩ := exists_continuation hd hseg.closed hn
      (fun p hp => hseg.root_mem hp (.inl rfl)) hresumed
    have ha := arranged_of_continuation hfrag hn.nodup
    have hin : ∀ s ∈ e.stops, ∀ h ∈ e.function.handlers, h.covers s.point.instr →
        e.graph.blockNumber h.target.toNat ∈ e.plan.segments.tail.flatten :=
      fun s hs => hresumed s.point (mem_of_getElem? (hn.mem hs).2)
    refine ⟨frag, code, hs, hfrag, hfin, ha.carries hd hfin hseg.closed hresumed, fun hsize => ?_⟩
    have hcode : code = (codes frag.items).map (toInstr frag.address) :=
      (finish_eq_ok.mp hfin).1.2.symm
    rw [ha.items, codes_append, codes_append, map_append] at hcode
    rw [hcode, shielded_append, length_map, Nat.zero_add]
    unfold shieldedContinuation
    rw [append_assoc]
    exact congrArg₂ (· ++ ·) (shielded_opening ha hd hfin hsize hn.number hin)
      (ha.shielded_behind hd hfin hsize fun q hq => coversAt_joins ha hd hfin hsize hn.number hq hin)
  · intro a g c hmade
    obtain ⟨frag, frag', hfrag, hfrag', hg, hc⟩ := functions_eq_ok hmade
    obtain ⟨code, hfin, hcode, -⟩ := Fragment.build_eq_ok hg
    obtain ⟨code', hfin', hcode', -⟩ := Fragment.build_eq_ok hc
    exact ⟨⟨frag, code, hfrag, hfin, hcode⟩, frag', code', hfrag', hfin', hcode'⟩

end Emission

/-- **Handler tables are remapped exactly.** In both functions of a state machine, what covers an
instruction covers all of its copy, in the same order, and leads to the copies of the handlers. -/
theorem Plan.handlers_remapped {a : Analyzer} {f : Func} {is : List Instr} {sites : List Nat}
    {plan : Plan} (h : Plan.make a f is sites = .ok plan) (hne : plan.points ≠ []) (u : CodeUnit) :
    (Emission.prepare f is plan u).1.Remapped :=
  Emission.remapped_of_make h hne (Emission.numbered_prepare f is plan u)

/-- The continuation of `againFunc` has 59 instructions and two handlers. -/
theorem Plan.handlers_remapped_again :
    ∃ plan frag code hs, Plan.make againAnalyzer againFunc againBody
        (againAnalyzer.unit.sites .standard againBody) = .ok plan ∧ plan.points ≠ [] ∧
      (Emission.prepare againFunc againBody plan againAnalyzer.unit).1.continuation = .ok frag ∧
      frag.finish = .ok (code, hs) ∧ code.length = 59 ∧
      hs.map (fun h => (h.start, h.stop, h.target)) = [(25, 31, 38), (16, 18, 38)] ∧
      (Emission.prepare againFunc againBody plan againAnalyzer.unit).1.Remapped := by
  obtain ⟨plan, hplan, hpoints, -⟩ := exists_plan_again
  have hne : plan.points ≠ [] := by
    intro h
    rw [h] at hpoints
    cases hpoints
  have hcode : ((Plan.make againAnalyzer againFunc againBody
      (againAnalyzer.unit.sites .standard againBody)).toOption.bind fun plan =>
        (Emission.prepare againFunc againBody plan againAnalyzer.unit).1.continuation.toOption.bind
          fun frag => frag.finish.toOption.map fun code =>
            (code.1.length, code.2.map fun h => (h.start, h.stop, h.target))) =
      some (59, [(25, 31, 38), (16, 18, 38)]) := by
    decide +kernel
  rw [hplan, show (Except.ok plan : Attempt Plan).toOption = some plan from rfl,
    Option.bind_some] at hcode
  obtain ⟨frag, hfrag, hfin⟩ := Option.bind_eq_some_iff.mp hcode
  obtain ⟨⟨code, hs⟩, hfin, hfields⟩ := Option.map_eq_some_iff.mp hfin
  obtain ⟨hlength, hhandlers⟩ := Prod.mk.inj hfields
  exact ⟨plan, frag, code, hs, hplan, hne, toOption_eq_some.mp hfrag, toOption_eq_some.mp hfin,
    hlength, hhandlers, Plan.handlers_remapped hplan hne againAnalyzer.unit⟩

end Resumable
