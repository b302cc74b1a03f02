import Mathlib.Data.List.Nodup
import Resumable.Proofs.Exec.History

/-!
# Where machines are

A machine that has promised a future is in one place: it waits for a future, it is about to be resumed,
one of its activations is under way, it is linked to a future that it returned, it is about to settle
what it promised, or it is stranded and waits for nothing. `Books` says so of all machines at once and ties the places to the history.
Each of the lemmas below moves one machine from a place to the next.
-/

namespace Resumable

open List Store

/-! ## Registrations -/

namespace Store

variable {s s' : Store} {m f g k : Nat} {c : Callback} {o : Outcome} {fs : List Future}

/-- The callbacks for a machine on some futures, the first of which has number `k`. -/
def collect (m k : Nat) (fs : List Future) : List (Nat × Callback) :=
  (fs.zipIdx k).flatMap fun (x, f) => (x.callbacks.filter (·.machine? = some m)).map (f, ·)

theorem registrations_eq (s : Store) (m : Nat) : s.registrations m = collect m 0 s.futures := rfl

@[simp] theorem collect_nil : collect m k [] = [] := rfl

theorem collect_cons {x : Future} :
    collect m k (x :: fs) =
      (x.callbacks.filter (·.machine? = some m)).map (k, ·) ++ collect m (k + 1) fs := by
  simp [collect, zipIdx_cons]

theorem collect_append {fs gs : List Future} :
    collect m k (fs ++ gs) = collect m k fs ++ collect m (k + fs.length) gs := by
  simp [collect, zipIdx_append]

theorem collect_eq_nil (h : ∀ x ∈ fs, x.callbacks = []) :
    collect m k fs = [] := by
  induction fs generalizing k with
  | nil => rfl
  | cons x fs ih =>
    obtain ⟨hx, hfs⟩ := forall_mem_cons.mp h
    rw [collect_cons, hx, ih hfs]
    rfl

theorem mem_collect (h : (f, c) ∈ collect m k fs) :
    k ≤ f ∧ f < k + fs.length ∧ c.machine? = some m := by
  induction fs generalizing k with
  | nil => cases h
  | cons x fs ih =>
    rw [collect_cons, mem_append] at h
    rcases h with h | h
    · obtain ⟨c', hc, heq⟩ := mem_map.mp h
      cases heq
      exact ⟨Nat.le_refl _, by simp, by simpa using (mem_filter.mp hc).2⟩
    · obtain ⟨h1, h2, h3⟩ := ih h
      exact ⟨by omega, by rw [length_cons]; omega, h3⟩

/-- A future that is settled leaves the list. -/
theorem collect_clear {k i : Nat} (fs : List Future) :
    collect m k (fs.modify i fun x => { x with outcome := some o, callbacks := [] }) =
      (collect m k fs).filter (·.1 ≠ k + i) := by
  induction fs generalizing k i with
  | nil => simp
  | cons x fs ih =>
    cases i with
    | zero =>
      have hall : (collect m (k + 1) fs).filter (·.1 ≠ k + 0) = collect m (k + 1) fs := by
        rw [filter_eq_self]
        rintro ⟨f, c⟩ h
        have := (mem_collect h).1
        simpa using by omega
      rw [modify_zero_cons, collect_cons, collect_cons, filter_append, hall]
      simp [filter_map, Function.comp_def]
    | succ i =>
      rw [modify_succ_cons, collect_cons, collect_cons, ih, filter_append,
        show k + 1 + i = k + (i + 1) by omega]
      congr 1
      symm
      rw [filter_eq_self]
      rintro ⟨f, c⟩ h
      obtain ⟨c', -, heq⟩ := mem_map.mp h
      cases heq
      simp

/-- What a future that is settled hands out. -/
theorem collect_at {k i : Nat} (fs : List Future) :
    (((fs[i]?).map (·.callbacks)).getD []).filter (·.machine? = some m) =
      ((collect m k fs).filter (·.1 = k + i)).map (·.2) := by
  induction fs generalizing k i with
  | nil => simp
  | cons x fs ih =>
    rw [collect_cons, filter_append, map_append]
    cases i with
    | zero =>
      have hnone : (collect m (k + 1) fs).filter (·.1 = k + 0) = [] := by
        rw [filter_eq_nil_iff]
        rintro ⟨f, c⟩ h
        have := (mem_collect h).1
        simpa using by omega
      rw [hnone]
      simp [filter_map, Function.comp_def]
    | succ i =>
      have hnone : ((x.callbacks.filter (·.machine? = some m)).map (k, ·)).filter
          (·.1 = k + (i + 1)) = [] := by
        rw [filter_eq_nil_iff]
        rintro ⟨f, c⟩ h
        obtain ⟨c', -, heq⟩ := mem_map.mp h
        cases heq
        simp
      rw [hnone, map_nil, nil_append, show k + (i + 1) = k + 1 + i by omega, ← ih]
      simp

/-- A new callback is the only one if there was none. -/
theorem collect_add {k i : Nat} (hi : i < fs.length) (hc : c.machine? = some m)
    (hnone : collect m k fs = []) :
    collect m k (fs.modify i fun x => { x with callbacks := x.callbacks ++ [c] }) = [(k + i, c)] := by
  induction fs generalizing k i with
  | nil => cases hi
  | cons x fs ih =>
    rw [collect_cons, append_eq_nil_iff] at hnone
    obtain ⟨hx, hfs⟩ := hnone
    cases i with
    | zero =>
      rw [modify_zero_cons, collect_cons, hfs, filter_append, map_append, hx]
      simp [hc]
    | succ i =>
      rw [modify_succ_cons, collect_cons, hx, ih (Nat.lt_of_succ_lt_succ hi) hfs]
      simp
      omega

/-- A callback for another machine does not matter. -/
theorem collect_add_of_ne {k i : Nat} (hc : c.machine? ≠ some m) :
    collect m k (fs.modify i fun x => { x with callbacks := x.callbacks ++ [c] }) =
      collect m k fs := by
  induction fs generalizing k i with
  | nil => simp
  | cons x fs ih =>
    cases i with
    | zero => simp [collect_cons, hc]
    | succ i => rw [modify_succ_cons, collect_cons, collect_cons, ih]

theorem lt_of_mem_registrations (h : (f, c) ∈ s.registrations m) : f < s.futures.length := by
  have := (mem_collect (k := 0) h).2.1
  omega

theorem registrations_settle (o : Outcome) :
    (s.settle f o).2.registrations m = (s.registrations m).filter (·.1 ≠ f) := by
  have := collect_clear (m := m) (k := 0) (i := f) (o := o) s.futures
  rwa [Nat.zero_add] at this

theorem handedOut_settle (o : Outcome) :
    (s.settle f o).1.filter (·.machine? = some m) =
      ((s.registrations m).filter (·.1 = f)).map (·.2) := by
  have := collect_at (m := m) (k := 0) (i := f) s.futures
  rwa [Nat.zero_add] at this

theorem registrations_register (hf : f < s.futures.length) (hc : c.machine? = some m)
    (h : s.registrations m = []) : (s.register f c).registrations m = [(f, c)] := by
  have := collect_add (k := 0) hf hc h
  rwa [Nat.zero_add] at this

theorem registrations_register_of_ne (hc : c.machine? ≠ some m) :
    (s.register f c).registrations m = s.registrations m := collect_add_of_ne hc

theorem outcome?_settle (hf : f < s.futures.length) :
    (s.settle f o).2.outcome? g = if g = f then some o else s.outcome? g := by
  simp only [outcome?, settle, getElem?_modify]
  split
  next h =>
    subst h
    rw [if_pos rfl, getElem?_eq_getElem hf]
    rfl
  next h =>
    rw [if_neg fun h' => h h'.symm]
    simp

theorem outcome?_register : (s.register f c).outcome? g = s.outcome? g := by
  simp only [outcome?, register, getElem?_modify]
  split
  · cases s.futures[g]? <;> rfl
  · cases s.futures[g]? <;> rfl

theorem outcome?_eq_none_of_le (hf : s.futures.length ≤ f) : s.outcome? f = none := by
  rw [outcome?, getElem?_eq_none hf]
  rfl

theorem lt_of_outcome? (h : s.outcome? f = some o) : f < s.futures.length := by
  by_contra hf
  rw [outcome?_eq_none_of_le (Nat.le_of_not_lt hf)] at h
  cases h

/-- Settling a future that does not exist does nothing. -/
theorem settle_of_le (hf : s.futures.length ≤ f) : s.settle f o = ([], s) := by
  simp only [settle, getElem?_eq_none hf, Option.map_none, Option.getD_none,
    modify_eq_self hf]

namespace Grows

variable (h : s.Grows s')

include h

theorem registrations : s'.registrations m = s.registrations m := by
  obtain ⟨new, hnew, hnone⟩ := h.futures
  rw [registrations_eq, registrations_eq, hnew, collect_append, collect_eq_nil hnone,
    append_nil]

theorem length_le : s.futures.length ≤ s'.futures.length := by
  obtain ⟨new, hnew, -⟩ := h.futures
  rw [hnew, length_append]
  omega

theorem outcome? (hf : f < s.futures.length) : s'.outcome? f = s.outcome? f := by
  obtain ⟨new, hnew, -⟩ := h.futures
  rw [Store.outcome?, Store.outcome?, hnew, getElem?_append_left hf]

theorem result (m : Nat) :
    (s'.machines[m]?).map (·.result) = (s.machines[m]?).map (·.result) := by
  rw [← getElem?_map, ← getElem?_map, h.results]

end Grows

theorem Grows.refl (s : Store) : s.Grows s := ⟨⟨[], by simp⟩, rfl⟩

theorem Grows.trans {s'' : Store} (h : s.Grows s') (h' : s'.Grows s'') : s.Grows s'' := by
  obtain ⟨new, hnew, hnone⟩ := h.futures
  obtain ⟨new', hnew', hnone'⟩ := h'.futures
  refine ⟨⟨new ++ new', by rw [hnew', hnew, append_assoc], fun x hx => ?_⟩,
    h'.results.trans h.results⟩
  rcases mem_append.mp hx with hx | hx
  · exact hnone x hx
  · exact hnone' x hx

theorem grows_countResume (s : Store) (m : Nat) : s.Grows (s.countResume m) := by
  refine ⟨⟨[], by simp [countResume]⟩, ?_⟩
  refine ext_getElem? fun i => ?_
  simp only [countResume, getElem?_map, getElem?_modify]
  split <;> cases s.machines[i]? <;> rfl

end Store

/-! ## Histories -/

/-- The machine that a milestone is about. -/
def Milestone.machine : Milestone → Nat
  | .suspended m _ _ | .resumed m _ | .kept m | .concluded m _ | .settled m _ | .intruded m
  | .lost m => m

section

variable {m m' : Nat} {es : List Milestone} {e : Milestone} {d : Parcel} {fresh : Bool}
  {r : Except Error Value} {o : Outcome}

theorem underway_append : underway (es ++ [e]) = (underway es).bind fun us => e.goOn us := by
  rw [underway, foldlM_append]
  cases h : foldlM Milestone.goOn [] es <;> simp [underway, h]

/-- Only the end of an activation strands a machine. -/
theorem stranded_append : Stranded (es ++ [e]) m ↔
    Stranded es m ∨ e = .kept m ∧ ∃ us, underway es = some (⟨m, false⟩ :: us) := by
  constructor
  · rintro ⟨es₁, es₂, us, hes, hus⟩
    rcases eq_nil_or_concat es₂ with rfl | ⟨es₃, e', rfl⟩
    · obtain ⟨rfl, he⟩ := append_inj' hes rfl
      exact .inr ⟨(cons.inj he).1, us, hus⟩
    · rw [concat_eq_append, ← cons_append, ← append_assoc] at hes
      exact .inl ⟨es₁, es₃, us, (append_inj' hes rfl).1, hus⟩
  · rintro (⟨es₁, es₂, us, rfl, hus⟩ | ⟨rfl, us, hus⟩)
    · exact ⟨es₁, es₂ ++ [e], us, by simp, hus⟩
    · exact ⟨es, [], us, rfl, hus⟩

/-- What a history tells about a machine. -/
structure Tale where
  suspensions : List Parcel
  deliveries : List Parcel
  conclusions : List (Except Error Value)
  settlements : List Outcome
  stranded : Prop

/-- What a history tells about machine `m`. -/
def tale (m : Nat) (es : List Milestone) : Tale :=
  ⟨suspensions m es, deliveries m es, conclusions m es, settlements m es, Stranded es m⟩

theorem tale_of_ne (h : e.machine ≠ m) : tale m (es ++ [e]) = tale m es := by
  cases e <;> simp_all [tale, suspensions, deliveries, conclusions, settlements, stranded_append,
    Milestone.machine]

theorem tale_suspended : tale m (es ++ [.suspended m fresh d]) =
    { tale m es with suspensions := suspensions m es ++ [d] } := by
  simp [tale, suspensions, deliveries, conclusions, settlements, stranded_append]

theorem tale_resumed : tale m (es ++ [.resumed m d]) =
    { tale m es with deliveries := deliveries m es ++ [d] } := by
  simp [tale, suspensions, deliveries, conclusions, settlements, stranded_append]

theorem tale_kept : tale m (es ++ [.kept m]) =
    { tale m es with
      stranded := Stranded es m ∨ ∃ us, underway es = some (⟨m, false⟩ :: us) } := by
  simp [tale, suspensions, deliveries, conclusions, settlements, stranded_append]

theorem tale_concluded : tale m (es ++ [.concluded m r]) =
    { tale m es with conclusions := conclusions m es ++ [r] } := by
  simp [tale, suspensions, deliveries, conclusions, settlements, stranded_append]

theorem tale_settled : tale m (es ++ [.settled m o]) =
    { tale m es with settlements := settlements m es ++ [o] } := by
  simp [tale, suspensions, deliveries, conclusions, settlements, stranded_append]

end

/-! ## Positions -/

/-- Where a machine is. -/
inductive Position
  /-- It was not made yet. -/
  | absent
  /-- It waits for a future that is pending. -/
  | waits (d : Parcel)
  /-- It is about to be resumed. -/
  | due (d : Parcel) (o : Outcome)
  /-- An activation of it is under way. -/
  | runs
  /-- It waits for a future that an activation has returned. -/
  | links (f : Nat)
  /-- It is about to settle what it promised. -/
  | ends (r : Except Error Value) (o : Outcome)
  /-- It has settled what it promised. -/
  | done (r : Except Error Value) (o : Outcome)
  /-- Its last activation returned what it promised, and nobody will settle that. -/
  | strands

namespace Position

/-- The callbacks that are registered for a machine. -/
def registrations (m : Nat) : Position → List (Nat × Callback)
  | waits d => [(d.awaited, d.callback m)]
  | links f => [(f, .link m)]
  | _ => []

/-- The callbacks for a machine that are to be run, with the outcomes. -/
def queue (m : Nat) : Position → List (Callback × Outcome)
  | due d o => [(d.callback m, o)]
  | ends _ o => [(.link m, o)]
  | _ => []

/-- The number of activations under way that have not suspended. -/
def running : Position → Nat
  | runs => 1
  | _ => 0

/-- The parcels that are still to be delivered. -/
def parcels : Position → List Parcel
  | waits d | due d _ => [d]
  | _ => []

def conclusions : Position → List (Except Error Value)
  | links f => [.ok (.future f)]
  | ends r _ | done r _ => [r]
  | _ => []

def settlements : Position → List Outcome
  | done _ o => [o]
  | _ => []

/-- What a history tells about a machine that is at a position, if `delivered` was delivered to it. -/
def tells (delivered : List Parcel) (π : Position) : Tale :=
  ⟨delivered ++ π.parcels, delivered, π.conclusions, π.settlements, π = .strands⟩

/-- What became of the promised future. -/
def outcome? : Position → Option Outcome
  | done _ o => some o
  | _ => none

/-- What a position says about the store. -/
def Holds (s : Store) : Position → Prop
  | waits d => s.outcome? d.awaited = none
  | due d o => s.outcome? d.awaited = some o
  | links f => s.outcome? f = none
  | ends r o | done r o => Leads s r o
  | absent | runs | strands => True

end Position

/-- The callbacks in a queue that are for a machine. -/
def queued (m : Nat) (q : List (Callback × Outcome)) : List (Callback × Outcome) :=
  q.filter (·.1.machine? = some m)

/-- A machine is at a position, if `q` is to be run and `run` are the machines with an activation
under way that has not suspended. -/
structure Stands (es : List Milestone) (q : List (Callback × Outcome)) (s : Store) (run : List Nat)
    (m : Nat) (π : Position) : Prop where
  registrations : s.registrations m = π.registrations m
  queue : queued m q = π.queue m
  running : run.count m = π.running
  told : tale m es = π.tells (deliveries m es)
  outcome : ((s.machines[m]?).map (·.result)).bind s.outcome? = π.outcome?
  holds : π.Holds s
  absent : π = .absent ↔ (s.machines[m]?).map (·.result) = none

/-- All machines are at their positions. -/
structure Books (es : List Milestone) (q : List (Callback × Outcome)) (s : Store)
    (run : List Nat) : Prop where
  position : ∀ m, ∃ π, Stands es q s run m π
  delivered : ∀ m, ∀ d ∈ deliveries m es, s.isDone d.awaited
  distinct : (s.machines.map (·.result)).Nodup
  promised : ∀ f ∈ s.machines.map (·.result), f < s.futures.length
  last : es.Pairwise fun e e' => ∀ m r d, e = .concluded m r → e' ≠ .resumed m d

/-! ## Moves -/

section

variable {es es' : List Milestone} {q q' : List (Callback × Outcome)} {s s' : Store}
  {run run' : List Nat} {m m' f : Nat} {π : Position} {c : Callback} {o : Outcome} {d : Parcel}
  {r : Except Error Value} {fresh : Bool}

theorem Leads.mono (h : Leads s r o)
    (hs : ∀ f o, s.outcome? f = some o → s'.outcome? f = some o) : Leads s' r o := by
  cases r with
  | error e => exact h
  | ok v => cases v <;> first | exact hs _ _ h | exact h

theorem queued_cons_of_ne (hc : c.machine? ≠ some m) : queued m ((c, o) :: q) = queued m q := by
  simp [queued, hc]

theorem Callback.machine?_ne (hc : c.machine? = some m) (hne : m' ≠ m) : c.machine? ≠ some m' := by
  rw [hc]
  exact fun h => hne (Option.some.inj h).symm

theorem queued_cons (hc : c.machine? = some m) :
    queued m ((c, o) :: q) = (c, o) :: queued m q := by
  simp [queued, hc]

theorem Position.Holds.congr (h : π.Holds s) (hs : ∀ f, s'.outcome? f = s.outcome? f) :
    π.Holds s' := by
  have hmono {r : Except Error Value} {o : Outcome} (h : Leads s r o) : Leads s' r o :=
    h.mono fun f o h => (hs f).trans h
  cases π with
  | waits d | links f | due d o => exact (hs _).trans h
  | ends r o | done r o => exact hmono h
  | absent | runs | strands => trivial

theorem told_of_eq {l : List Parcel} (h : tale m es = π.tells l) :
    tale m es = π.tells (deliveries m es) := by
  rw [h, show deliveries m es = l from congrArg Tale.deliveries h]

namespace Stands

variable (h : Stands es q s run m π)

include h

theorem sent : suspensions m es = deliveries m es ++ π.parcels := congrArg Tale.suspensions h.told

theorem conclusions : conclusions m es = π.conclusions := congrArg Tale.conclusions h.told

theorem settlements : settlements m es = π.settlements := congrArg Tale.settlements h.told

theorem stranded : Stranded es m ↔ π = .strands := iff_of_eq (congrArg Tale.stranded h.told)

end Stands

/-- A machine stays where it is if nothing about it changes. -/
theorem Stands.frame (h : Stands es q s run m π)
    (hregs : s'.registrations m = s.registrations m) (hq : queued m q' = queued m q)
    (hrun : run'.count m = run.count m) (htale : tale m es' = tale m es)
    (hresult : (s'.machines[m]?).map (·.result) = (s.machines[m]?).map (·.result))
    (hout : ∀ f, (s.machines[m]?).map (·.result) = some f → s'.outcome? f = s.outcome? f)
    (hholds : π.Holds s') : Stands es' q' s' run' m π where
  registrations := hregs.trans h.registrations
  queue := hq.trans h.queue
  running := hrun.trans h.running
  told := told_of_eq (htale.trans h.told)
  outcome := by
    rw [hresult, ← h.outcome]
    cases hf : (s.machines[m]?).map (·.result) with
    | none => rfl
    | some f => exact hout f hf
  holds := hholds
  absent := by
    rw [hresult]
    exact h.absent

namespace Books

variable (hb : Books es q s run)

include hb

theorem lt_of_promised (h : (s.machines[m]?).map (·.result) = some f) : f < s.futures.length := by
  rw [← getElem?_map] at h
  exact hb.promised f (mem_of_getElem? h)

theorem promiser_unique (h : (s.machines[m]?).map (·.result) = some f)
    (h' : (s.machines[m']?).map (·.result) = some f) : m = m' := by
  rw [← getElem?_map] at h h'
  exact (getElem?_inj (List.getElem?_eq_some_iff.mp h).1 hb.distinct).mp (h.trans h'.symm)

/-- Machines stay where they are when the store grows. -/
theorem grow (hs : s.Grows s') : Books es q s' run where
  position m := by
    obtain ⟨π, hπ⟩ := hb.position m
    refine ⟨π, hπ.frame hs.registrations rfl rfl rfl (hs.result m)
      (fun f hf => hs.outcome? (hb.lt_of_promised hf)) ?_⟩
    have hlt {f : Nat} {c : Callback} (h : π.registrations m = [(f, c)]) :
        f < s.futures.length :=
      lt_of_mem_registrations (m := m) (c := c)
        (by rw [hπ.registrations, h]; exact mem_singleton.mpr rfl)
    have hmono (f : Nat) (o : Outcome) (h : s.outcome? f = some o) : s'.outcome? f = some o :=
      (hs.outcome? (lt_of_outcome? h)).trans h
    have hholds := hπ.holds
    cases π with
    | waits d | links f => exact (hs.outcome? (hlt rfl)).trans hholds
    | due d o => exact hmono _ _ hholds
    | ends r o | done r o => exact Leads.mono hholds hmono
    | absent | runs | strands => trivial
  delivered m d hd := by
    have h := hb.delivered m d hd
    obtain ⟨o, ho⟩ := Option.isSome_iff_exists.mp h
    rw [isDone, hs.outcome? (lt_of_outcome? ho)]
    exact h
  distinct := by
    rw [hs.results]
    exact hb.distinct
  promised f hf := by
    rw [hs.results] at hf
    exact Nat.lt_of_lt_of_le (hb.promised f hf) hs.length_le
  last := hb.last

/-- A callback that is for no machine is dropped from the queue. -/
theorem drop (hq : q = (c, o) :: q') (hc : c.machine? = none) : Books es q' s run where
  position m := by
    obtain ⟨π, hπ⟩ := hb.position m
    refine ⟨π, hπ.frame rfl ?_ rfl rfl rfl (fun _ _ => rfl) hπ.holds⟩
    rw [hq, queued_cons_of_ne (by rw [hc]; simp)]
  delivered := hb.delivered
  distinct := hb.distinct
  promised := hb.promised
  last := hb.last

/-- A callback that is for no machine is added to the queue. -/
theorem enqueue (hc : c.machine? = none) : Books es ((c, o) :: q) s run where
  position m := by
    obtain ⟨π, hπ⟩ := hb.position m
    exact ⟨π, hπ.frame rfl (queued_cons_of_ne (by rw [hc]; simp)) rfl rfl rfl (fun _ _ => rfl)
      hπ.holds⟩
  delivered := hb.delivered
  distinct := hb.distinct
  promised := hb.promised
  last := hb.last

/-- A callback that is for no machine is registered. -/
theorem observe (hc : c.machine? = none) : Books es q (s.register f c) run where
  position m := by
    obtain ⟨π, hπ⟩ := hb.position m
    exact ⟨π, hπ.frame (registrations_register_of_ne (by rw [hc]; simp)) rfl rfl rfl rfl
      (fun _ _ => outcome?_register) (hπ.holds.congr fun _ => outcome?_register)⟩
  delivered m d hd := by
    rw [isDone, outcome?_register]
    exact hb.delivered m d hd
  distinct := hb.distinct
  promised g hg := by
    rw [show (s.register f c).futures.length = s.futures.length from length_modify ..]
    exact hb.promised g hg
  last := hb.last

/-- A milestone that is no delivery is put on record, with the positions that follow from it. -/
theorem record {e : Milestone} (he : ∀ m d, e ≠ .resumed m d)
    (hdone : ∀ f, s.isDone f → s'.isDone f)
    (hresults : s'.machines.map (·.result) = s.machines.map (·.result))
    (hlen : s'.futures.length = s.futures.length)
    (hpos : ∀ m, ∃ π, Stands (es ++ [e]) q' s' run' m π) : Books (es ++ [e]) q' s' run' where
  position := hpos
  delivered m d hd := by
    have hsame : deliveries m (es ++ [e]) = deliveries m es := by
      cases e <;> simp_all [deliveries]
    rw [hsame] at hd
    exact hdone _ (hb.delivered m d hd)
  distinct := by
    rw [hresults]
    exact hb.distinct
  promised f hf := by
    rw [hresults] at hf
    rw [hlen]
    exact hb.promised f hf
  last := by
    refine pairwise_append.mpr ⟨hb.last, pairwise_singleton _ _, ?_⟩
    intro e' _ e'' he'' m r d _ h
    exact he m d ((mem_singleton.mp he'').symm.trans h)

/-- An activation that has suspended ends with what its machine has promised. -/
theorem keep {us : List Underway} (hus : underway es = some (⟨m, true⟩ :: us)) :
    Books (es ++ [.kept m]) q s run := by
  refine hb.record (by simp) (fun _ h => h) rfl rfl fun m' => ?_
  obtain ⟨π, hπ⟩ := hb.position m'
  refine ⟨π, hπ.frame rfl rfl rfl ?_ rfl (fun _ _ => rfl) hπ.holds⟩
  by_cases hne : m = m'
  · subst hne
    rw [tale_kept, hus]
    simp [tale]
  · exact tale_of_ne hne

end Books

/-- A machine with an activation under way that has not suspended is nowhere else. -/
theorem Books.runs (hb : Books es q s (m :: run)) : Stands es q s (m :: run) m .runs := by
  obtain ⟨π, hπ⟩ := hb.position m
  have h := hπ.running
  rw [count_cons_self] at h
  cases π with
  | runs => exact hπ
  | _ => cases h

/-- A milestone of another machine leaves a machine where it is. -/
theorem Stands.other {e : Milestone} (h : Stands es q s (m :: run) m' π) (hne : m' ≠ m)
    (he : e.machine = m) (hregs : s'.registrations m' = s.registrations m')
    (hq : queued m' q' = queued m' q) (hmachines : s'.machines = s.machines)
    (hs : ∀ f, s'.outcome? f = s.outcome? f) : Stands (es ++ [e]) q' s' run m' π :=
  h.frame hregs hq (count_cons_of_ne hne.symm).symm (tale_of_ne (he ▸ hne.symm))
    (by rw [hmachines]) (fun f _ => hs f) (h.holds.congr hs)

/-- A machine goes on to another position. -/
theorem Stands.leave (h : Stands es q s (m :: run) m .runs) (hmachines : s'.machines = s.machines)
    (hs : ∀ f, s'.outcome? f = s.outcome? f)
    (htale : tale m es' = π.tells (deliveries m es))
    (hregs : s'.registrations m = π.registrations m) (hq : queued m q' = π.queue m)
    (hrun : π.running = 0) (hout : π.outcome? = none) (habsent : π ≠ .absent)
    (hholds : π.Holds s) : Stands es' q' s' run m π where
  registrations := hregs
  queue := hq
  running := by
    have := h.running
    rw [count_cons_self] at this
    rw [hrun]
    exact Nat.succ.inj this
  told := told_of_eq htale
  outcome := by
    rw [hmachines, hout, ← show Position.runs.outcome? = none from rfl, ← h.outcome]
    cases (s.machines[m]?).map (·.result) with
    | none => rfl
    | some f => exact hs f
  holds := hholds.congr hs
  absent := by
    rw [hmachines, ← h.absent]
    exact iff_of_false habsent (by simp)

namespace Books

variable (hb : Books es q s (m :: run))

include hb

/-- An activation suspends its machine until a future is settled. -/
theorem suspend (hd : d.awaited < s.futures.length) (ho : s.outcome? d.awaited = none) :
    Books (es ++ [.suspended m fresh d]) q (s.register d.awaited (d.callback m)) run := by
  have hout (f : Nat) : (s.register d.awaited (d.callback m)).outcome? f = s.outcome? f :=
    outcome?_register
  refine hb.record (by simp) (fun f h => by rwa [isDone, hout]) rfl
    (by simp [register]) fun m' => ?_
  by_cases hne : m' = m
  · subst hne
    have h := hb.runs
    refine ⟨.waits d, h.leave rfl hout ?_ (registrations_register hd rfl h.registrations)
      h.queue rfl rfl (by simp) ho⟩
    simp [tale_suspended, h.sent, h.told, Position.tells, Position.parcels, Position.conclusions,
      Position.settlements]
  · obtain ⟨π, hπ⟩ := hb.position m'
    exact ⟨π, hπ.other hne rfl (registrations_register_of_ne (Callback.machine?_ne rfl hne)) rfl rfl hout⟩

/-- An activation suspends its machine although the future is settled: the resumption is due. -/
theorem suspend_done (ho : s.outcome? d.awaited = some o) :
    Books (es ++ [.suspended m fresh d]) ((d.callback m, o) :: q) s run := by
  refine hb.record (by simp) (fun f h => h) rfl rfl fun m' => ?_
  by_cases hne : m' = m
  · subst hne
    have h := hb.runs
    refine ⟨.due d o, h.leave rfl (fun _ => rfl) ?_ h.registrations ?_ rfl rfl (by simp) ho⟩
    · simp [tale_suspended, h.sent, h.told, Position.tells, Position.parcels, Position.conclusions,
      Position.settlements]
    · rw [queued_cons rfl, h.queue]
      rfl
  · obtain ⟨π, hπ⟩ := hb.position m'
    exact ⟨π, hπ.other hne rfl rfl (queued_cons_of_ne (Callback.machine?_ne rfl hne)) rfl
      fun _ => rfl⟩

/-- An activation returns another future, which is pending. -/
theorem link (hf : f < s.futures.length) (ho : s.outcome? f = none) :
    Books (es ++ [.concluded m (.ok (.future f))]) q (s.register f (.link m)) run := by
  have hout (g : Nat) : (s.register f (.link m)).outcome? g = s.outcome? g :=
    outcome?_register
  refine hb.record (by simp) (fun f h => by rwa [isDone, hout]) rfl
    (by simp [register]) fun m' => ?_
  by_cases hne : m' = m
  · subst hne
    have h := hb.runs
    refine ⟨.links f, h.leave rfl hout ?_ (registrations_register hf rfl h.registrations)
      h.queue rfl rfl (by simp) ho⟩
    simp [tale_concluded, h.conclusions, h.told, Position.tells, Position.parcels, Position.conclusions,
      Position.settlements]
  · obtain ⟨π, hπ⟩ := hb.position m'
    exact ⟨π, hπ.other hne rfl (registrations_register_of_ne (Callback.machine?_ne rfl hne)) rfl rfl hout⟩

/-- An activation that has not suspended ends with what its machine has promised: nobody waits for
anything on behalf of the machine. -/
theorem strand {us : List Underway} (hus : underway es = some (⟨m, false⟩ :: us)) :
    Books (es ++ [.kept m]) q s run := by
  refine hb.record (by simp) (fun f h => h) rfl rfl fun m' => ?_
  by_cases hne : m' = m
  · subst hne
    have h := hb.runs
    refine ⟨.strands, h.leave rfl (fun _ => rfl) ?_ h.registrations h.queue rfl rfl (by simp)
      trivial⟩
    simp [tale_kept, hus, h.told, Position.tells, Position.parcels, Position.conclusions,
      Position.settlements]
  · obtain ⟨π, hπ⟩ := hb.position m'
    exact ⟨π, hπ.other hne rfl rfl rfl rfl fun _ => rfl⟩

/-- An activation ends, and what its machine has promised is to be settled. -/
theorem conclude (hr : Leads s r o) :
    Books (es ++ [.concluded m r]) ((.link m, o) :: q) s run := by
  refine hb.record (by simp) (fun f h => h) rfl rfl fun m' => ?_
  by_cases hne : m' = m
  · subst hne
    have h := hb.runs
    refine ⟨.ends r o, h.leave rfl (fun _ => rfl) ?_ h.registrations ?_ rfl rfl (by simp) hr⟩
    · simp [tale_concluded, h.conclusions, h.told, Position.tells, Position.parcels, Position.conclusions,
      Position.settlements]
    · rw [queued_cons rfl, h.queue]
      rfl
  · obtain ⟨π, hπ⟩ := hb.position m'
    exact ⟨π, hπ.other hne rfl rfl (queued_cons_of_ne (Callback.machine?_ne rfl hne)) rfl
      fun _ => rfl⟩

end Books

theorem Parcel.callback_injective {d' : Parcel} (h : d.callback m = d'.callback m) : d = d' := by
  cases d
  cases d'
  cases h
  rfl

/-- A parcel is delivered: its machine has an activation again. -/
theorem Books.resume (hb : Books es ((d.callback m, o) :: q) s run) :
    Books (es ++ [.resumed m d]) q s (m :: run) := by
  obtain ⟨π, h⟩ := hb.position m
  have hqueue := h.queue
  rw [queued_cons rfl] at hqueue
  -- The head of the queue tells where the machine is.
  obtain ⟨rfl, hq⟩ : π = .due d o ∧ queued m q = [] := by
    cases π with
    | due d' o' =>
      obtain ⟨hhead, htail⟩ := cons.inj hqueue
      obtain ⟨hd, rfl⟩ := Prod.mk.inj hhead
      rw [Parcel.callback_injective hd]
      exact ⟨rfl, htail⟩
    | ends r o' => cases (Prod.mk.inj (cons.inj hqueue).1).1
    | _ => cases hqueue
  have hother (m' : Nat) (hne : m' ≠ m) : tale m' (es ++ [.resumed m d]) = tale m' es :=
    tale_of_ne hne.symm
  refine ⟨fun m' => ?_, fun m' d' hd' => ?_, hb.distinct, hb.promised, ?_⟩
  · by_cases hne : m' = m
    · subst hne
      refine ⟨.runs, h.registrations, hq, ?_, told_of_eq (l := deliveries m' es ++ [d]) ?_,
        h.outcome, trivial, ?_⟩
      · rw [count_cons_self, h.running]
        rfl
      · simp [tale_resumed, h.told, Position.tells, Position.parcels, Position.conclusions,
          Position.settlements]
      · rw [← h.absent]
        simp
    · obtain ⟨π, hπ⟩ := hb.position m'
      refine ⟨π, hπ.frame rfl ?_ (count_cons_of_ne (Ne.symm hne)) (hother m' hne) rfl
        (fun _ _ => rfl) hπ.holds⟩
      exact (queued_cons_of_ne (Callback.machine?_ne (c := d.callback m) rfl hne)).symm
  · by_cases hne : m' = m
    · subst hne
      rw [show deliveries m' (es ++ [.resumed m' d]) = deliveries m' es ++ [d] from
        congrArg Tale.deliveries tale_resumed, mem_append, mem_singleton] at hd'
      rcases hd' with hd' | rfl
      · exact hb.delivered m' d' hd'
      · rw [isDone, show s.outcome? d'.awaited = some o from h.holds]
        rfl
    · rw [show deliveries m' (es ++ [.resumed m d]) = deliveries m' es from
        congrArg Tale.deliveries (hother m' hne)] at hd'
      exact hb.delivered m' d' hd'
  · refine pairwise_append.mpr ⟨hb.last, pairwise_singleton _ _, ?_⟩
    intro e he e' he' m' r d' hr hd'
    cases (mem_singleton.mp he').symm.trans hd'
    have : r ∈ conclusions m es := mem_filterMap.mpr ⟨e, he, by simp [hr]⟩
    rw [h.conclusions] at this
    cases this

/-! ### Settling futures -/

theorem Store.outcome?_settle_mono (hpending : s.outcome? f = none) (hf : f < s.futures.length)
    (g : Nat) (o' : Outcome) (h : s.outcome? g = some o') :
    (s.settle f o).2.outcome? g = some o' := by
  rw [outcome?_settle hf, if_neg, h]
  rintro rfl
  rw [hpending] at h
  cases h

theorem queued_settle : queued m ((s.settle f o).1.map (·, o) ++ q) =
    (((s.registrations m).filter (·.1 = f)).map (·.2)).map (·, o) ++ queued m q := by
  rw [← handedOut_settle o, queued, filter_append, filter_map]
  rfl

/-- A machine waits no longer for a future that is settled. What it promised itself is another
future. -/
theorem Stands.settle (h : Stands es q s run m π) (hf : f < s.futures.length)
    (hpending : s.outcome? f = none) (hown : (s.machines[m]?).map (·.result) ≠ some f) :
    ∃ π', Stands es ((s.settle f o).1.map (·, o) ++ q) (s.settle f o).2 run m π' := by
  have hout (g : Nat) (hg : g ≠ f) : (s.settle f o).2.outcome? g = s.outcome? g := by
    rw [outcome?_settle hf, if_neg hg]
  have hself : (s.settle f o).2.outcome? f = some o := by
    rw [outcome?_settle hf, if_pos rfl]
  have hmono := outcome?_settle_mono (o := o) hpending hf
  have hresult : ((s.machines[m]?).map (·.result)).bind (s.settle f o).2.outcome? =
      ((s.machines[m]?).map (·.result)).bind s.outcome? := by
    cases hg : (s.machines[m]?).map (·.result) with
    | none => rfl
    | some g => exact hout g fun hgf => hown (hg.trans (congrArg some hgf))
  have hframe (hregs : ∀ x ∈ π.registrations m, x.1 ≠ f) (hholds : π.Holds (s.settle f o).2) :
      Stands es ((s.settle f o).1.map (·, o) ++ q) (s.settle f o).2 run m π := by
    refine h.frame ?_ ?_ rfl rfl rfl (fun g hg => hout g fun hgf => hown (hgf ▸ hg)) hholds
    · rw [registrations_settle, h.registrations, filter_eq_self]
      exact fun x hx => decide_eq_true (hregs x hx)
    · rw [queued_settle, h.registrations, filter_eq_nil_iff.mpr]
      · rfl
      · exact fun x hx => by simpa using hregs x hx
  have hregs := registrations_settle (s := s) (m := m) (f := f) o
  have hqueue := queued_settle (s := s) (m := m) (f := f) (o := o) (q := q)
  rw [h.registrations] at hregs hqueue
  rw [h.queue] at hqueue
  have hholds := h.holds
  cases π with
  | waits d =>
    by_cases hd : d.awaited = f
    · subst hd
      refine ⟨.due d o, hregs.trans ?_, hqueue.trans ?_, h.running, h.told.trans ?_,
        hresult.trans h.outcome, hself, ?_⟩
      · simp [Position.registrations]
      · simp [Position.registrations, Position.queue]
      · simp [Position.tells, Position.parcels, Position.conclusions, Position.settlements]
      · exact ⟨fun h => (by cases h), fun h' => by cases h.absent.mpr h'⟩
    · exact ⟨_, hframe (by simpa [Position.registrations] using hd) ((hout _ hd).trans hholds)⟩
  | links g =>
    by_cases hg : g = f
    · subst hg
      refine ⟨.ends (.ok (.future g)) o, hregs.trans ?_, hqueue.trans ?_, h.running,
        h.told.trans ?_, hresult.trans h.outcome, hself, ?_⟩
      · simp [Position.registrations]
      · simp [Position.registrations, Position.queue]
      · simp [Position.tells, Position.parcels, Position.conclusions, Position.settlements]
      · exact ⟨fun h => (by cases h), fun h' => by cases h.absent.mpr h'⟩
    · exact ⟨_, hframe (by simpa [Position.registrations] using hg) ((hout _ hg).trans hholds)⟩
  | due d o' => exact ⟨_, hframe (by simp [Position.registrations]) (hmono _ _ hholds)⟩
  | ends r o' => exact ⟨_, hframe (by simp [Position.registrations]) (Leads.mono hholds hmono)⟩
  | done r o' => exact ⟨_, hframe (by simp [Position.registrations]) (Leads.mono hholds hmono)⟩
  | absent | runs | strands => exact ⟨_, hframe (by simp [Position.registrations]) trivial⟩

/-- Someone settles a future that no machine has promised. -/
theorem Books.settle (hb : Books es q s run) (hf : f < s.futures.length)
    (hpending : s.outcome? f = none) (hown : f ∉ s.machines.map (·.result)) :
    Books es ((s.settle f o).1.map (·, o) ++ q) (s.settle f o).2 run where
  position m := by
    obtain ⟨π, hπ⟩ := hb.position m
    refine hπ.settle hf hpending fun h => hown ?_
    rw [← getElem?_map] at h
    exact mem_of_getElem? h
  delivered m d hd := by
    obtain ⟨o', ho'⟩ := Option.isSome_iff_exists.mp (hb.delivered m d hd)
    rw [isDone, outcome?_settle_mono hpending hf _ _ ho']
    rfl
  distinct := hb.distinct
  promised f' hf' := by
    rw [show (s.settle f o).2.futures.length = s.futures.length from length_modify ..]
    exact hb.promised f' hf'
  last := hb.last

/-- A machine settles what it promised. Nobody did so before. -/
theorem Books.fulfil (hb : Books es ((.link m, o) :: q) s run)
    (hm : (s.machines[m]?).map (·.result) = some f) :
    s.outcome? f = none ∧ Books (es ++ [.settled m o]) ((s.settle f o).1.map (·, o) ++ q)
      (s.settle f o).2 run := by
  have hf := hb.lt_of_promised hm
  obtain ⟨π, h⟩ := hb.position m
  have hqueue := h.queue
  rw [queued_cons rfl] at hqueue
  -- The head of the queue tells where the machine is.
  obtain ⟨r, rfl, hq⟩ : ∃ r, π = .ends r o ∧ queued m q = [] := by
    cases π with
    | ends r o' =>
      obtain ⟨hhead, htail⟩ := cons.inj hqueue
      obtain ⟨-, rfl⟩ := Prod.mk.inj hhead
      exact ⟨r, rfl, htail⟩
    | due d o' => cases (Prod.mk.inj (cons.inj hqueue).1).1
    | _ => cases hqueue
  have hpending : s.outcome? f = none := by
    have := h.outcome
    rwa [hm] at this
  have hmono := outcome?_settle_mono (o := o) hpending hf
  refine ⟨hpending, hb.record (by simp) (fun g hg => ?_) rfl (length_modify ..) fun m' => ?_⟩
  · obtain ⟨o', ho'⟩ := Option.isSome_iff_exists.mp hg
    rw [isDone, hmono _ _ ho']
    rfl
  by_cases hne : m' = m
  · subst hne
    refine ⟨.done r o, ?_, ?_, h.running, told_of_eq (l := deliveries m' es) ?_, ?_,
      Leads.mono h.holds hmono, ?_⟩
    · rw [registrations_settle, h.registrations]
      rfl
    · rw [queued_settle, h.registrations, hq]
      rfl
    · simp [tale_settled, h.settlements, h.told, Position.tells, Position.parcels,
        Position.conclusions, Position.settlements]
    · show ((s.machines[m']?).map (·.result)).bind _ = _
      rw [hm]
      exact (outcome?_settle hf).trans (if_pos rfl)
    · exact ⟨fun h => (by cases h), fun h' => by cases h.absent.mpr h'⟩
  · obtain ⟨π, hπ⟩ := hb.position m'
    have hother : Stands (es ++ [.settled m o]) q s run m' π :=
      hπ.frame rfl (queued_cons_of_ne (Callback.machine?_ne (c := .link m) rfl hne)).symm rfl
        (tale_of_ne (Ne.symm hne)) rfl (fun _ _ => rfl) hπ.holds
    exact hother.settle hf hpending fun h => hne (hb.promiser_unique h hm)

/-! ### New machines -/

/-- A new machine that is about to be suspended counts as one with an activation. -/
theorem Books.newMachine (hb : Books es q s run) (continuation cls : Text) :
    Books es q (s.newMachine continuation cls).2 (s.machines.length :: run) := by
  have hfutures : (s.newMachine continuation cls).2.futures = s.futures ++ [{ cls := cls }] := rfl
  have hmachines : (s.newMachine continuation cls).2.machines =
      s.machines ++ [{ continuation, result := s.futures.length }] := rfl
  have hresults : (s.newMachine continuation cls).2.machines.map (·.result) =
      s.machines.map (·.result) ++ [s.futures.length] := by
    rw [hmachines, map_append]
    rfl
  -- Apart from the machine, the store just has one more future.
  have hgrows : s.Grows { (s.newMachine continuation cls).2 with machines := s.machines } :=
    ⟨⟨[{ cls := cls }], hfutures, by simp⟩, rfl⟩
  have hb' := hb.grow hgrows
  refine ⟨fun m => ?_, hb'.delivered, ?_, fun f hf => ?_, hb.last⟩
  · obtain ⟨π, hπ⟩ := hb'.position m
    by_cases hm : m = s.machines.length
    · subst hm
      obtain rfl : π = .absent := hπ.absent.mpr (by simp)
      have hself : (s.newMachine continuation cls).2.machines[s.machines.length]? =
          some { continuation, result := s.futures.length } := by
        rw [hmachines, getElem?_append_right (Nat.le_refl _), Nat.sub_self]
        rfl
      refine ⟨.runs, hπ.registrations, hπ.queue, ?_, hπ.told.trans ?_, ?_, trivial, ?_⟩
      · rw [count_cons_self, hπ.running]
        rfl
      · simp [Position.tells, Position.parcels, Position.conclusions, Position.settlements]
      · rw [hself]
        show outcome? _ _ = none
        rw [outcome?, hfutures, getElem?_append_right (Nat.le_refl _), Nat.sub_self]
        rfl
      · rw [hself]
        simp
    · refine ⟨π, hπ.frame rfl rfl (count_cons_of_ne (Ne.symm hm)) rfl ?_ (fun _ _ => rfl)
        hπ.holds⟩
      rw [hmachines, getElem?_append]
      split
      · rfl
      next hlt =>
        rw [getElem?_eq_none (show s.machines.length ≤ m by omega),
          getElem?_eq_none (by rw [length_singleton]; omega)]
  · rw [hresults]
    refine nodup_append.mpr ⟨hb.distinct, nodup_singleton _, fun f hf g hg => ?_⟩
    rw [mem_singleton.mp hg]
    exact Nat.ne_of_lt (hb.promised f hf)
  · rw [hfutures, length_append, length_singleton]
    rw [hresults, mem_append, mem_singleton] at hf
    rcases hf with hf | rfl
    · exact Nat.lt_succ_of_lt (hb.promised f hf)
    · exact Nat.lt_succ_self _

end

end Resumable
