import Resumable.Proofs.Command.Collect
import Resumable.Proofs.Command.Schedule

/-!
# Outputs of a batch

If no unit of a batch is written to a place that another one is read from or written to, then no
schedule makes a difference: every unit is written as it was made of its own input, and stays there.
Without that condition outputs are lost, even if the paths of all inputs and outputs are different.
-/

namespace Resumable

open Disk List

namespace Batch

/-! ## Batches without conflicts -/

/-- What some of the units write, and where. -/
def writesFrom (o : Options) (d : Disk) (inputs : List Input) (units : Nat → Prop) (p : List Text)
    (x : Bytes) : Prop :=
  ∃ j b data, units j ∧ inputs[j]? = some b ∧ d.read b.path = .ok data ∧ writesOf o d.here b data p x

/-- No unit is written to the place that another one is read from, or is to be written to. -/
def Apart (o : Options) (d : Disk) (inputs : List Input) : Prop :=
  ∀ {i : Nat} {a : Input}, inputs[i]? = some a → ∀ x,
    ¬ writesFrom o d inputs (· ≠ i) (spot d.here a.path) x ∧
      ¬ writesFrom o d inputs (· ≠ i) (spot d.here (destination o a)) x

/-- What is known of a unit while a batch is worked on. -/
def Good (o : Options) (d : Disk) (inputs : List Input) (i : Nat) (a : Input) (data : Bytes)
    (e : Disk) : Job → Prop
  | .waiting => Alters (writesFrom o d inputs (· ≠ i)) d e
  | .active _ work =>
    work.Keeps (writesFrom o d inputs (· ≠ i)) (writesOf o d.here a data) (Accomplished o a data) e
  | .finished r =>
    ∀ c, Alters (writesFrom o d inputs (· ≠ i)) e c → Accomplished o a data (.ok r) c

/-- What is known of a batch while it is worked on. -/
structure Underway (o : Options) (d : Disk) (inputs : List Input) (s : Pool) : Prop where
  fst_jobs : s.jobs.map Prod.fst = inputs
  disk : Alters (writesFrom o d inputs fun _ => True) d s.disk
  good : ∀ {i : Nat} {a : Input} {job : Job} {data : Bytes}, s.jobs[i]? = some (a, job) →
    d.read a.path = .ok data → Good o d inputs i a data s.disk job

section

variable {o : Options} {d e e' : Disk} {inputs : List Input} {i n : Nat} {a : Input} {data : Bytes}
  {s : Pool} {rs : List FileResult} {r : FileResult}

/-- Others may go on. -/
theorem Good.later {job : Job} (h : Good o d inputs i a data e job)
    (he : Alters (writesFrom o d inputs (· ≠ i)) e e') : Good o d inputs i a data e' job := by
  cases job with
  | waiting => exact Alters.trans h he
  | active w work => exact Work.Keeps.later h he
  | finished r => exact fun c hc => h c (he.trans hc)

theorem underway_start : Underway o d inputs (.start inputs d) where
  fst_jobs := by
    rw [Pool.start, map_map]
    exact map_id inputs
  disk := .refl d
  good := by
    intro i a job data hjob hread
    rw [Pool.start, getElem?_map, Option.map_eq_some_iff] at hjob
    obtain ⟨b, -, hjob⟩ := hjob
    cases hjob
    exact .refl d

namespace Underway

theorem getElem?_inputs {job : Job} (h : Underway o d inputs s) (hjob : s.jobs[i]? = some (a, job)) :
    inputs[i]? = some a := by
  rw [← h.fst_jobs, getElem?_map, hjob]
  rfl

/-- A unit gets further, and only what it may write is written meanwhile. -/
theorem set {job job' : Job} (h : Underway o d inputs s) (hjob : s.jobs[i]? = some (a, job))
    (hread : d.read a.path = .ok data) (hdisk : Alters (writesOf o d.here a data) s.disk e)
    (hgood : Good o d inputs i a data e job') :
    Underway o d inputs { disk := e, jobs := s.jobs.set i (a, job') } where
  fst_jobs := by
    obtain ⟨hlt, ha⟩ := List.getElem?_eq_some_iff.mp (h.getElem?_inputs hjob)
    rw [map_set, h.fst_jobs, ← ha, set_getElem_self]
  disk := h.disk.trans <| hdisk.mono fun p x hx =>
    ⟨i, a, data, trivial, h.getElem?_inputs hjob, hread, hx⟩
  good := by
    intro j b job'' data' hb hread'
    rw [getElem?_set] at hb
    split_ifs at hb with hij hlt
    · cases hb
      subst hij
      cases hread.symm.trans hread'
      exact hgood
    · refine (h.good hb hread').later (hdisk.mono fun p x hx => ?_)
      exact ⟨i, a, data, hij, h.getElem?_inputs hjob, hread, hx⟩

/-- **One step of a worker.** -/
theorem advance (h : Underway o d inputs s) (hapart : Apart o d inputs)
    (hlegible : ∀ a ∈ inputs, ∃ data, d.read a.path = .ok data) (w i : Nat) :
    Underway o d inputs (s.advance o w i) := by
  unfold Pool.advance
  have hread : ∀ {a : Input} {job : Job}, s.jobs[i]? = some (a, job) →
      ∃ data, d.read a.path = .ok data :=
    fun hjob => hlegible _ (mem_of_getElem? (h.getElem?_inputs hjob))
  split
  next a hjob =>
    obtain ⟨data, hread⟩ := hread hjob
    have hwaiting : Alters (writesFrom o d inputs (· ≠ i)) d s.disk := h.good hjob hread
    have hin := fun x => (hapart (h.getElem?_inputs hjob) x).1
    have hout := fun x => (hapart (h.getElem?_inputs hjob) x).2
    refine h.set hjob hread (.refl _) ?_
    exact keeps_process hwaiting.here (hwaiting.read_ok hin hread) hin hout
  next a v change next hjob =>
    obtain ⟨data, hread⟩ := hread hjob
    obtain ⟨hdisk, hnext⟩ := h.good hjob hread s.disk (.refl _)
    exact h.set hjob hread hdisk hnext
  next a v r hjob =>
    obtain ⟨data, hread⟩ := hread hjob
    have hdone : Good o d inputs i a data s.disk (.active v (.done (.ok r))) := h.good hjob hread
    exact h.set hjob hread (.refl _) hdone
  · exact h

/-- **A run of the workers.** -/
theorem play (h : Underway o d inputs s) (hapart : Apart o d inputs)
    (hlegible : ∀ a ∈ inputs, ∃ data, d.read a.path = .ok data) (schedule : List Nat) :
    Underway o d inputs (s.play o schedule) := by
  induction schedule generalizing s with
  | nil => exact h
  | cons w schedule ih =>
    refine ih ?_
    unfold Pool.step
    split
    · exact h.advance hapart hlegible w _
    · exact h

end Underway

/-- The results of units, wherever and whenever they were done. -/
theorem Ends.accomplished (h : Ends o n inputs d rs e)
    (hapart : Apart o d inputs) (hlegible : ∀ a ∈ inputs, ∃ data, d.read a.path = .ok data) :
    Alters (writesFrom o d inputs fun _ => True) d e ∧ rs.length = inputs.length ∧
      ∀ {i : Nat} {a : Input} {r : FileResult} {data : Bytes}, inputs[i]? = some a →
        rs[i]? = some r → d.read a.path = .ok data → Accomplished o a data (.ok r) e := by
  obtain ⟨schedule, -, hrs, rfl⟩ := h
  have hunderway := underway_start.play hapart hlegible schedule
  generalize Pool.play o (.start inputs d) schedule = s at hrs hunderway
  rw [Pool.results?_eq_some] at hrs
  refine ⟨hunderway.disk, ?_, fun {i a r data} ha hr hread => ?_⟩
  · rw [← length_map Job.finished, ← hrs, ← hunderway.fst_jobs, length_map,
      length_map]
  · have hjob : s.jobs[i]? = some (a, .finished r) := by
      have hfst := congrArg (·[i]?) hunderway.fst_jobs
      have hsnd := congrArg (·[i]?) hrs
      simp only [getElem?_map, ha, hr] at hfst hsnd
      cases hjob : s.jobs[i]? with
      | none => simp [hjob] at hfst
      | some job =>
        simp only [hjob, Option.map_some, Option.some.injEq] at hfst hsnd
        exact congrArg some (Prod.ext hfst hsnd)
    exact hunderway.good hjob hread s.disk (.refl _)

/-! ### Results -/

/-- A unit that fails does so because its transformation fails, not because it cannot be written. -/
def NoWriteFails (o : Options) (d : Disk) (inputs : List Input) (rs : List FileResult) : Prop :=
  ∀ {i : Nat} {a : Input} {r : FileResult} {error : Error}, inputs[i]? = some a → rs[i]? = some r →
    r.status = .failed error →
    ∃ data out r', d.read a.path = .ok data ∧ outcome o a.path data = .ok (out, r') ∧
      r'.status = .failed error

/-- Every unit that is told to be written somewhere can be read there, as it was made of the contents
that its input had in the beginning. -/
def Kept (o : Options) (d : Disk) (inputs : List Input) (rs : List FileResult) (e : Disk) : Prop :=
  ∀ {i : Nat} {a : Input} {r : FileResult}, inputs[i]? = some a → rs[i]? = some r →
    r.output.isEmpty = false →
    ∃ data out r', d.read a.path = .ok data ∧ outcome o a.path data = .ok (out, r') ∧
      r = { r' with output := destination o a } ∧ e.read r.output = .ok out

theorem output_outcome {path : Text} {out : Bytes}
    (h : outcome o path data = .ok (out, r)) : r.output = ∅ := by
  unfold outcome at h
  dsimp only at h
  split at h
  · cases h
    rfl
  · cases h
    rfl
  · cases h

theorem isWritten_of_failed {error : Error} (h : r.status = .failed error) :
    isWritten o r = false := by
  unfold isWritten
  rw [h]

/-- What is told of a unit: that it could not be written, or what was made of it. -/
theorem Accomplished.eq_ok (h : Accomplished o a data (.ok r) e) :
    ∃ out r', outcome o a.path data = .ok (out, r') ∧
      ((isWritten o r' ∧ ∃ error, r = { r' with status := .failed error }) ∨
        r = (if isWritten o r' then { r' with output := destination o a } else r') ∧
          (isWritten o r' → e.read (destination o a) = .ok out)) := by
  cases houtcome : outcome o a.path data with
  | error f =>
    unfold Accomplished at h
    rw [houtcome] at h
    cases h
  | ok result =>
    obtain ⟨out, r'⟩ := result
    rw [accomplished_iff houtcome] at h
    refine ⟨out, r', rfl, ?_⟩
    by_cases hwritten : isWritten o r'
    · rw [if_pos hwritten] at h ⊢
      rcases h with ⟨error, herror⟩ | ⟨hr, hread⟩
      · exact .inl ⟨hwritten, error, Except.ok.inj herror⟩
      · exact .inr ⟨Except.ok.inj hr, fun _ => hread⟩
    · rw [if_neg hwritten] at h ⊢
      exact .inr ⟨Except.ok.inj h, fun hw => absurd hw hwritten⟩

/-- What is told of a unit if writes do not fail. -/
theorem Accomplished.eq_of_noWriteFails
    (h : Accomplished o a data (.ok r) e) (hrs : NoWriteFails o d inputs rs)
    (ha : inputs[i]? = some a) (hr : rs[i]? = some r) (hread : d.read a.path = .ok data) :
    ∃ out r', outcome o a.path data = .ok (out, r') ∧
      r = (if isWritten o r' then { r' with output := destination o a } else r') ∧
        (isWritten o r' → e.read (destination o a) = .ok out) := by
  obtain ⟨out, r', houtcome, ⟨hwritten, error, rfl⟩ | hr'⟩ := h.eq_ok
  · obtain ⟨data', out', r'', hread', houtcome', hfailed⟩ := hrs ha hr rfl
    cases hread.symm.trans hread'
    cases houtcome.symm.trans houtcome'
    rw [isWritten_of_failed hfailed] at hwritten
    cases hwritten
  · exact ⟨out, r', houtcome, hr'⟩

theorem Ends.kept (h : Ends o n inputs d rs e)
    (hapart : Apart o d inputs) (hlegible : ∀ a ∈ inputs, ∃ data, d.read a.path = .ok data) :
    Kept o d inputs rs e := by
  intro i a r ha hr houtput
  obtain ⟨-, -, haccomplished⟩ := h.accomplished hapart hlegible
  obtain ⟨data, hread⟩ := hlegible a (mem_of_getElem? ha)
  obtain ⟨out, r', houtcome, ⟨-, error, rfl⟩ | ⟨rfl, hdest⟩⟩ := (haccomplished ha hr hread).eq_ok
  · rw [output_outcome houtcome] at houtput
    cases houtput
  · refine ⟨data, out, r', hread, houtcome, ?_⟩
    split_ifs at houtput ⊢ with hwritten
    · exact ⟨rfl, hdest hwritten⟩
    · rw [output_outcome houtcome] at houtput
      cases houtput

theorem Ends.results_eq {n n' : Nat} {rs rs' : List FileResult} (h : Ends o n inputs d rs e)
    (h' : Ends o n' inputs d rs' e') (hapart : Apart o d inputs)
    (hlegible : ∀ a ∈ inputs, ∃ data, d.read a.path = .ok data) (hrs : NoWriteFails o d inputs rs)
    (hrs' : NoWriteFails o d inputs rs') : rs = rs' := by
  obtain ⟨-, hlength, haccomplished⟩ := h.accomplished hapart hlegible
  obtain ⟨-, hlength', haccomplished'⟩ := h'.accomplished hapart hlegible
  refine ext_getElem (hlength.trans hlength'.symm) fun i hi hi' => ?_
  have ha := getElem?_eq_getElem (hlength ▸ hi)
  have hr := getElem?_eq_getElem hi
  have hr' := getElem?_eq_getElem hi'
  obtain ⟨data, hread⟩ := hlegible _ (mem_of_getElem? ha)
  obtain ⟨out, r, houtcome, heq, -⟩ :=
    (haccomplished ha hr hread).eq_of_noWriteFails hrs ha hr hread
  obtain ⟨out', r', houtcome', heq', -⟩ :=
    (haccomplished' ha hr' hread).eq_of_noWriteFails hrs' ha hr' hread
  cases houtcome.symm.trans houtcome'
  rw [heq, heq']

/-- Where something is written, that is what is there in the end. -/
theorem Ends.file_of_writesFrom (h : Ends o n inputs d rs e)
    (hapart : Apart o d inputs) (hlegible : ∀ a ∈ inputs, ∃ data, d.read a.path = .ok data)
    (hrs : NoWriteFails o d inputs rs) {p : List Text} {x : Bytes}
    (hp : writesFrom o d inputs (fun _ => True) p x) : e.node? p = some (.file x) := by
  obtain ⟨halters, hlength, haccomplished⟩ := h.accomplished hapart hlegible
  obtain ⟨i, a, data, -, ha, hread, rfl, r', houtcome, hwritten⟩ := hp
  have hi : i < rs.length := hlength ▸ lt_of_getElem? ha
  have hr := getElem?_eq_getElem hi
  obtain ⟨out, r'', houtcome', -, hdest⟩ :=
    (haccomplished ha hr hread).eq_of_noWriteFails hrs ha hr hread
  cases houtcome.symm.trans houtcome'
  obtain ⟨p, hplace, hfile⟩ := read_eq_ok.mp (hdest hwritten)
  rw [← halters.here, ← place_eq_ok hplace]
  exact hfile

theorem Ends.file_iff {n n' : Nat} {rs rs' : List FileResult} (h : Ends o n inputs d rs e)
    (h' : Ends o n' inputs d rs' e') (hapart : Apart o d inputs)
    (hlegible : ∀ a ∈ inputs, ∃ data, d.read a.path = .ok data) (hrs : NoWriteFails o d inputs rs)
    (hrs' : NoWriteFails o d inputs rs') {p : List Text} {x : Bytes} :
    e.node? p = some (.file x) ↔ e'.node? p = some (.file x) := by
  by_cases hp : ∃ y, writesFrom o d inputs (fun _ => True) p y
  · obtain ⟨y, hp⟩ := hp
    rw [h.file_of_writesFrom hapart hlegible hrs hp, h'.file_of_writesFrom hapart hlegible hrs' hp]
  · have hnone : ∀ y, ¬ writesFrom o d inputs (fun _ => True) p y := fun y hy => hp ⟨y, hy⟩
    rw [(h.accomplished hapart hlegible).1.file_iff hnone,
      (h'.accomplished hapart hlegible).1.file_iff hnone]

/-- Units are apart if their destinations are places of their own. -/
theorem apart_of_pairwise
    (h : inputs.Pairwise fun a b =>
      spot d.here (destination o a) ≠ spot d.here (destination o b) ∧
        spot d.here (destination o a) ≠ spot d.here b.path ∧
          spot d.here (destination o b) ≠ spot d.here a.path) :
    Apart o d inputs := by
  rw [pairwise_iff_getElem] at h
  intro i a ha x
  obtain ⟨hi, rfl⟩ := List.getElem?_eq_some_iff.mp ha
  constructor
  · rintro ⟨j, b, data, hne, hb, -, hp, -⟩
    obtain ⟨hj, rfl⟩ := List.getElem?_eq_some_iff.mp hb
    rcases Nat.lt_or_gt_of_ne hne with hlt | hlt
    · exact (h j i hj hi hlt).2.1 hp.symm
    · exact (h i j hi hj hlt).2.2 hp.symm
  · rintro ⟨j, b, data, hne, hb, -, hp, -⟩
    obtain ⟨hj, rfl⟩ := List.getElem?_eq_some_iff.mp hb
    rcases Nat.lt_or_gt_of_ne hne with hlt | hlt
    · exact (h j i hj hi hlt).1 hp.symm
    · exact (h i j hi hj hlt).1 hp

/-- **No output is lost** if the units of a batch are apart. However many workers there are and in
whatever order they go on, what is told to be written is there in the end. If no write fails, then
the results and the files do not depend on the workers. What is done one after the other can be
done by any number of workers. -/
theorem outputs_kept {args : List Text} (hcollect : (collect Disk.fileSystem args d).1 = .ok inputs)
    (hapart : Apart o d inputs) :
    (∀ n rs e, Ends o n inputs d rs e → rs.length = inputs.length ∧ Kept o d inputs rs e) ∧
      (∀ n n' rs rs' e e', Ends o n inputs d rs e → Ends o n' inputs d rs' e' →
        NoWriteFails o d inputs rs → NoWriteFails o d inputs rs' →
        rs = rs' ∧ ∀ p x, e.node? p = some (.file x) ↔ e'.node? p = some (.file x)) ∧
      ∀ n rs e, 0 < n → run Disk.fileSystem o inputs d = (.ok rs, e) → Ends o n inputs d rs e := by
  have hlegible : ∀ a ∈ inputs, ∃ data, d.read a.path = .ok data := by
    have h := (looks_collect d args).2
    rw [hcollect] at h
    exact h
  refine ⟨fun n rs e h => ?_, fun n n' rs rs' e e' h h' hrs hrs' => ?_, fun n rs e => ends_run⟩
  · exact ⟨(h.accomplished hapart hlegible).2.1, h.kept hapart hlegible⟩
  · exact ⟨h.results_eq h' hapart hlegible hrs hrs',
      fun p x => h.file_iff h' hapart hlegible hrs hrs'⟩

end

/-- The encoded unit of a function that returns a constant. -/
def constantUnit (name value : UInt8) : Bytes :=
  [0x43, 0x59, 0x53, 0x41, 1, 0, 0, 0, 1, 3, 1, 1, name, 5, 0x0d, 1, 0, 0, 0, 1, 1, 0, 3, 1, value,
    0x51, 0, 0]

/-- Units are written below the directory `out`. -/
def outward : Options := { settings := { output := "out" }, loader := .none, dryRun := false }

/-- Two units with different names. -/
def siblings : Disk where
  nodes :=
    [(["a"], .directory), (["a", "x.unit"], .file (constantUnit 0x70 1)), (["out"], .directory),
     (["y.unit"], .file (constantUnit 0x71 2))]

def siblingInputs : List Input := [⟨"a/x.unit", "x.unit"⟩, ⟨"y.unit", "y.unit"⟩]

def siblingResults : List FileResult :=
  [{ path := "a/x.unit", output := "out/x.unit", status := .unchanged },
   { path := "y.unit", output := "out/y.unit", status := .unchanged }]

/-- Two workers do two units. -/
theorem outputs_kept_siblings :
    (collect Disk.fileSystem ["y.unit", "a"] siblings).1 = .ok siblingInputs ∧
      Apart outward siblings siblingInputs ∧
      ∃ e, Ends outward 2 siblingInputs siblings siblingResults e ∧
        Kept outward siblings siblingInputs siblingResults e := by
  have hcollect : (collect Disk.fileSystem ["y.unit", "a"] siblings).1 = .ok siblingInputs := by
    decide +kernel
  have hapart : Apart outward siblings siblingInputs := apart_of_pairwise (by decide +kernel)
  obtain ⟨hkept, -, hrun⟩ := outputs_kept hcollect hapart
  have hends := hrun 2 siblingResults
    ((siblings.put ["out", "x.unit"] (.file (constantUnit 0x70 1))).put ["out", "y.unit"]
      (.file (constantUnit 0x71 2))) (by decide) (by
        show @Eq (Except Failure (List FileResult) × Disk) _ _
        decide +kernel)
  exact ⟨hcollect, hapart, _, hends, (hkept 2 _ _ hends).2⟩

/-- A unit that is written to where another one is read from. -/
def crossed : Disk where
  nodes :=
    [(["a"], .directory), (["a", "q"], .directory),
     (["a", "q", "x.unit"], .file (constantUnit 0x70 1)), (["out"], .directory),
     (["out", "q"], .directory), (["out", "q", "x.unit"], .file (constantUnit 0x71 2))]

def crossedInputs : List Input := [⟨"a/q/x.unit", "q/x.unit"⟩, ⟨"out/q/x.unit", "x.unit"⟩]

def crossedResults : List FileResult :=
  [{ path := "a/q/x.unit", output := "out/q/x.unit", status := .unchanged },
   { path := "out/q/x.unit", output := "out/x.unit", status := .unchanged }]

/-- The second of two units, whose paths and destinations are all different, is lost: where it is
told to be written there is the first one. -/
theorem output_lost :
    (collect Disk.fileSystem ["a", "out/q/x.unit"] crossed).1 = .ok crossedInputs ∧
      (crossedInputs.map Input.path).Nodup ∧ (crossedInputs.map (destination outward)).Nodup ∧
      ∀ n, 0 < n → ∃ e, Ends outward n crossedInputs crossed crossedResults e ∧
        ¬ Kept outward crossed crossedInputs crossedResults e := by
  refine ⟨by decide +kernel, by decide +kernel, by decide +kernel, fun n hn => ?_⟩
  refine ⟨(crossed.put ["out", "q", "x.unit"] (.file (constantUnit 0x70 1))).put ["out", "x.unit"]
    (.file (constantUnit 0x70 1)), ends_run hn (by
      show @Eq (Except Failure (List FileResult) × Disk) _ _
      decide +kernel), fun hkept => ?_⟩
  obtain ⟨data, out, r, hread, houtcome, -, hout⟩ := hkept (i := 1) rfl rfl (by decide +kernel)
  have hdata : crossed.read "out/q/x.unit" = .ok (constantUnit 0x71 2) := by decide +kernel
  cases hread.symm.trans hdata
  have hunchanged : outcome outward "out/q/x.unit" (constantUnit 0x71 2) =
      .ok (constantUnit 0x71 2, { path := "out/q/x.unit", status := .unchanged }) := by
    decide +kernel
  cases houtcome.symm.trans hunchanged
  exact absurd hout (by decide +kernel)

end Batch

end Resumable
