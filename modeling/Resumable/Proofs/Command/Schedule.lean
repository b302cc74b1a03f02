import Resumable.Proofs.Command.Work

/-!
# Workers

The workers of a batch take units in turn and do them at the same time, where the order of their
operations is given by a schedule. A worker who is alone does what is done one after the other.
-/

namespace Resumable

open Disk List

namespace Batch

/-! ## Schedules -/

/-- How far a unit is. -/
inductive Job
  | waiting
  | active (worker : Nat) (work : Work (Except Failure FileResult))
  | finished (r : FileResult)

namespace Job

def isWaiting : Job → Bool
  | waiting => true
  | _ => false

/-- Is a unit in the hands of a worker? -/
def isOf (w : Nat) : Job → Bool
  | active v _ => v = w
  | _ => false

def result? : Job → Option FileResult
  | finished r => some r
  | _ => none

@[simp]
theorem result?_waiting : waiting.result? = none := rfl

@[simp]
theorem result?_active {w : Nat} {work : Work (Except Failure FileResult)} :
    (active w work).result? = none := rfl

@[simp]
theorem result?_finished {r : FileResult} : (finished r).result? = some r := rfl

end Job

/-- A disk, and units in the order in which they are handed out. -/
structure Pool where
  disk : Disk
  jobs : List (Input × Job)

namespace Pool

/-- Nothing has been done. -/
def start (inputs : List Input) (d : Disk) : Pool where
  disk := d
  jobs := inputs.map fun input => (input, .waiting)

/-- Goes on with unit `i`, which worker `w` has or takes: one operation, or the result is told. Work
that ends in a failure of the program never gets to a result. -/
def advance (o : Options) (w i : Nat) (s : Pool) : Pool :=
  match s.jobs[i]? with
  | some (input, .waiting) =>
    { s with jobs := s.jobs.set i (input, .active w (process Work.fileSystem o input)) }
  | some (input, .active v (.act change next)) =>
    { disk := change s.disk, jobs := s.jobs.set i (input, .active v (next s.disk)) }
  | some (input, .active _ (.done (.ok r))) => { s with jobs := s.jobs.set i (input, .finished r) }
  | _ => s

/-- Worker `w` goes on with the unit that it has, or takes the next one. -/
def step (o : Options) (s : Pool) (w : Nat) : Pool :=
  match (s.jobs.findIdx? (·.2.isOf w)).or (s.jobs.findIdx? (·.2.isWaiting)) with
  | some i => s.advance o w i
  | none => s

/-- Workers go on in some order. -/
def play (o : Options) (s : Pool) (schedule : List Nat) : Pool := schedule.foldl (step o) s

/-- The results, once all units are finished. -/
def results? (s : Pool) : Option (List FileResult) := s.jobs.mapM fun job => job.2.result?

theorem results?_eq_some {s : Pool} {rs : List FileResult} :
    s.results? = some rs ↔ s.jobs.map Prod.snd = rs.map Job.finished := by
  obtain ⟨d, jobs⟩ := s
  show jobs.mapM (fun job => job.2.result?) = some rs ↔ _
  induction jobs generalizing rs with
  | nil => cases rs <;> simp
  | cons job jobs ih =>
    obtain ⟨input, job⟩ := job
    rw [mapM_cons]
    cases job with
    | waiting => cases rs <;> simp
    | active w work => cases rs <;> simp
    | finished r => cases rs <;> simp [Option.bind_eq_some_iff, ← ih, and_comm]

end Pool

/-- A batch on `n` workers can end with these results and this disk. -/
def Ends (o : Options) (n : Nat) (inputs : List Input) (d : Disk) (rs : List FileResult)
    (e : Disk) : Prop :=
  ∃ schedule : List Nat, (∀ w ∈ schedule, w < n) ∧
    ((Pool.start inputs d).play o schedule).results? = some rs ∧
    ((Pool.start inputs d).play o schedule).disk = e

/-! ## One worker -/

theorem bind_state_eq_ok {α β : Type} {x : ExceptT Failure (StateM Disk) α}
    {k : α → ExceptT Failure (StateM Disk) β} {b : β} {d e : Disk}
    (h : (x >>= k) d = (.ok b, e)) : ∃ a c, x d = (.ok a, c) ∧ k a c = (.ok b, e) := by
  change ExceptT.bindCont k (x d).1 (x d).2 = (.ok b, e) at h
  cases hx : x d with
  | mk r c =>
    rw [hx] at h
    cases r with
    | error f => cases h
    | ok a => exact ⟨a, c, rfl, h⟩

namespace Pool

variable {o : Options} {e e' : Disk} {done : List (Input × FileResult)} {a : Input}
  {job : Job} {jobs : List (Input × Job)} {inputs : List Input}

/-- A pool in which the first units are finished. -/
def midway (e : Disk) (done : List (Input × FileResult)) (jobs : List (Input × Job)) : Pool where
  disk := e
  jobs := done.map (fun x => (x.1, .finished x.2)) ++ jobs

theorem findIdx?_midway {p : Job → Bool} (hp : ∀ r, p (.finished r) = false) :
    (midway e done jobs).jobs.findIdx? (fun x => p x.2) =
      (jobs.findIdx? fun x => p x.2).map (· + done.length) := by
  have hdone : (done.map fun x => (x.1, Job.finished x.2)).findIdx? (fun x => p x.2) = none := by
    rw [findIdx?_eq_none_iff]
    rintro x hx
    obtain ⟨y, -, rfl⟩ := mem_map.mp hx
    exact hp y.2
  rw [midway, findIdx?_append, hdone, Option.none_or, length_map]

/-- A worker who is alone goes on with the first unit that is not finished. -/
theorem step_midway (hjob : job.isOf 0 ∨ job.isWaiting ∧ ∀ x ∈ jobs, x.2.isOf 0 = false) :
    (midway e done ((a, job) :: jobs)).step o 0 =
      (midway e done ((a, job) :: jobs)).advance o 0 done.length := by
  unfold step
  rw [findIdx?_midway fun _ => rfl, findIdx?_midway fun _ => rfl, findIdx?_cons]
  rcases hjob with hof | ⟨hwaiting, hjobs⟩
  · rw [if_pos hof]
    simp
  · have hof : job.isOf 0 = false := by
      cases job with
      | waiting => rfl
      | active w work | finished r => cases hwaiting
    rw [if_neg (by simp [hof]), findIdx?_eq_none_iff.mpr hjobs, findIdx?_cons,
      if_pos hwaiting]
    simp

theorem getElem?_midway : (midway e done ((a, job) :: jobs)).jobs[done.length]? = some (a, job) := by
  simp [midway]

theorem set_midway {job' : Job} :
    (midway e done ((a, job) :: jobs)).jobs.set done.length (a, job') =
      (midway e done ((a, job') :: jobs)).jobs := by
  simp [midway]

theorem midway_finished {r : FileResult} :
    midway e done ((a, .finished r) :: jobs) = midway e (done ++ [(a, r)]) jobs := by
  simp [midway]

/-- A schedule with one worker that leads from one pool to another. -/
def Alone (o : Options) (s t : Pool) : Prop :=
  ∃ schedule : List Nat, (∀ w ∈ schedule, w = 0) ∧ s.play o schedule = t

theorem Alone.refl (s : Pool) : Alone o s s := ⟨[], by simp, rfl⟩

theorem Alone.cons {s t : Pool} (h : Alone o (s.step o 0) t) : Alone o s t := by
  obtain ⟨schedule, hzero, ht⟩ := h
  exact ⟨0 :: schedule, by simpa using hzero, ht⟩

theorem Alone.trans {s t u : Pool} (h : Alone o s t) (h' : Alone o t u) : Alone o s u := by
  obtain ⟨schedule, hzero, rfl⟩ := h
  obtain ⟨schedule', hzero', rfl⟩ := h'
  refine ⟨schedule ++ schedule', ?_, foldl_append⟩
  simpa [or_imp, forall_and] using ⟨hzero, hzero'⟩

/-- The worker does a unit to its end. -/
theorem alone_active {work : Work (Except Failure FileResult)} {r : FileResult}
    (h : work.run e = (.ok r, e')) :
    Alone o (midway e done ((a, .active 0 work) :: jobs)) (midway e' (done ++ [(a, r)]) jobs) := by
  induction work generalizing e with
  | done result =>
    cases h
    refine .cons ?_
    rw [step_midway (.inl rfl), advance, getElem?_midway]
    dsimp only
    rw [set_midway, ← midway_finished]
    exact .refl _
  | act change next ih =>
    refine .cons ?_
    rw [step_midway (.inl rfl), advance, getElem?_midway]
    dsimp only
    rw [set_midway]
    exact ih e h

/-- The worker takes a unit and does it to its end. -/
theorem alone_waiting {r : FileResult} (hjobs : ∀ x ∈ jobs, x.2.isOf 0 = false)
    (h : process Disk.fileSystem o a e = (.ok r, e')) :
    Alone o (midway e done ((a, .waiting) :: jobs)) (midway e' (done ++ [(a, r)]) jobs) := by
  refine .cons ?_
  rw [step_midway (.inr ⟨rfl, hjobs⟩), advance, getElem?_midway]
  dsimp only
  rw [set_midway]
  refine alone_active ?_
  rw [run_process]
  exact h

/-- The worker does all units in turn. -/
theorem alone_run {rs : List FileResult} (h : run Disk.fileSystem o inputs e = (.ok rs, e'))
    (done : List (Input × FileResult)) :
    Alone o (midway e done (inputs.map fun a => (a, .waiting)))
      (midway e' (done ++ inputs.zip rs) []) ∧ rs.length = inputs.length := by
  induction inputs generalizing e done rs with
  | nil =>
    cases h
    rw [zip_nil_left, append_nil]
    exact ⟨.refl _, rfl⟩
  | cons a inputs ih =>
    rw [run, mapM_cons] at h
    obtain ⟨r, c, hr, h⟩ := bind_state_eq_ok h
    obtain ⟨rs', c', hrs, h⟩ := bind_state_eq_ok h
    cases h
    obtain ⟨halone, hlength⟩ := ih hrs (done ++ [(a, r)])
    refine ⟨.trans (alone_waiting ?_ hr) ?_, by rw [length_cons, length_cons, hlength]⟩
    · intro x hx
      obtain ⟨y, -, rfl⟩ := mem_map.mp hx
      rfl
    · rw [append_assoc] at halone
      exact halone

end Pool

theorem ends_run {o : Options} {n : Nat} {inputs : List Input} {d e : Disk} {rs : List FileResult}
    (hn : 0 < n) (h : run Disk.fileSystem o inputs d = (.ok rs, e)) : Ends o n inputs d rs e := by
  obtain ⟨⟨schedule, hzero, hplay⟩, hlength⟩ := Pool.alone_run h []
  refine ⟨schedule, fun w hw => hzero w hw ▸ hn, ?_, ?_⟩
  · show (Pool.play o (.midway d [] _) schedule).results? = some rs
    rw [hplay, Pool.results?_eq_some, Pool.midway, append_nil, nil_append, map_map]
    conv_rhs => rw [← map_snd_zip (Nat.le_of_eq hlength), map_map]
    rfl
  · exact congrArg Pool.disk hplay

end Batch

end Resumable
