import Resumable.Command.Batch
import Resumable.Proofs.Command.Disk

/-!
# Work that others interrupt

Work on a disk is done one operation at a time, and between two operations others may change the
disk. What a piece of work ensures nevertheless is said by `Work.Keeps`: as long as others only write
where they are allowed to, it only writes where it is allowed to itself, and its result is as it
should be.
-/

namespace Resumable

open Disk

/-- Work on a disk. After an operation it goes on with what the operation has seen. -/
inductive Work (α : Type)
  | done (a : α)
  | act (change : Disk → Disk) (next : Disk → Work α)

namespace Work

variable {α β : Type}

def bind : Work α → (α → Work β) → Work β
  | .done a, k => k a
  | .act change next, k => .act change fun d => (next d).bind k

instance : Monad Work where
  pure := .done
  bind := bind

/-- One operation. -/
def perform (x : StateM Disk α) : Work α := .act (fun d => (x d).2) fun d => .done (x d).1

/-- The operations on a disk, each of which can be interrupted before and after. -/
def fileSystem : FileSystem Work where
  workingDirectory := perform Disk.fileSystem.workingDirectory
  kind path := perform (Disk.fileSystem.kind path)
  read path := perform (Disk.fileSystem.read path)
  names path := perform (Disk.fileSystem.names path)
  makeDirectory path := perform (Disk.fileSystem.makeDirectory path)
  write path data := perform (Disk.fileSystem.write path data)

/-- The work when nobody interrupts it. -/
def run : Work α → StateM Disk α
  | .done a => pure a
  | .act change next => fun d => (next d).run (change d)

/-! ## Guarantees under interference -/

/-- Work that writes what `own` allows and ends with what `Q` says, if others write what `others`
allows at most. -/
def Keeps (others own : List Text → Bytes → Prop) (Q : α → Disk → Prop) : Work α → Disk → Prop
  | .done a, d => ∀ e, Alters others d e → Q a e
  | .act change next, d => ∀ e, Alters others d e →
      Alters own e (change e) ∧ (next e).Keeps others own Q (change e)

variable {others own : List Text → Bytes → Prop} {Q : α → Disk → Prop} {R : β → Disk → Prop}
  {w : Work α} {k : α → Work β} {d e : Disk}

/-- What others do beforehand does not matter. -/
theorem Keeps.later (h : w.Keeps others own Q d) (hde : Alters others d e) :
    w.Keeps others own Q e := by
  cases w with
  | done a | act change next => exact fun c hec => h c (hde.trans hec)

theorem Keeps.bind (h : w.Keeps others own Q d)
    (hk : ∀ a e, Q a e → (k a).Keeps others own R e) : (w >>= k).Keeps others own R d := by
  induction w generalizing d with
  | done a => exact hk a d (h d (.refl d))
  | act change next ih =>
    intro e hde
    obtain ⟨hown, hnext⟩ := h e hde
    exact ⟨hown, ih e hnext⟩

/-- Nobody moves the place that relative paths start from. -/
theorem Keeps.here (h : w.Keeps others own Q d) :
    w.Keeps others own (fun a e => Q a e ∧ e.here = d.here) d := by
  suffices hw : ∀ e, e.here = d.here → w.Keeps others own Q e →
      w.Keeps others own (fun a e => Q a e ∧ e.here = d.here) e from hw d rfl h
  clear h
  intro e he h
  induction w generalizing e with
  | done a => exact fun c hec => ⟨h c hec, hec.here.trans he⟩
  | act change next ih =>
    intro c hec
    obtain ⟨hown, hnext⟩ := h c hec
    exact ⟨hown, ih c (change c) (hown.here.trans (hec.here.trans he)) hnext⟩

theorem keeps_pure {a : α} (h : ∀ e, Alters others d e → Q a e) :
    (pure a : Work α).Keeps others own Q d :=
  h

theorem keeps_perform {x : StateM Disk α}
    (h : ∀ e, Alters others d e →
      Alters own e (x e).2 ∧ ∀ c, Alters others (x e).2 c → Q (x e).1 c) :
    (perform x).Keeps others own Q d :=
  h

/-- An operation whose answer does not matter. -/
theorem keeps_blindly {x : StateM Disk α} (h : ∀ e, Alters own e (x e).2) :
    (perform x).Keeps others own (fun _ _ => True) d :=
  keeps_perform fun e _ => ⟨h e, fun _ _ => trivial⟩

/-- Work within a computation that may fail. -/
theorem lift_bind {k : α → ExceptT Failure Work β} :
    (ExceptT.lift w >>= k : ExceptT Failure Work β) = (w >>= fun a => k a : Work (Except Failure β)) := by
  induction w with
  | done a => rfl
  | act change next ih => exact congrArg (Work.act change) (funext ih)

/-- A failure within such a computation ends it. -/
theorem mk_bind {x : Except Failure α} {k : α → ExceptT Failure Work β} :
    (ExceptT.mk (pure x) >>= k : ExceptT Failure Work β) =
      match x with
      | .ok a => k a
      | .error f => ExceptT.mk (pure (.error f)) := by
  cases x <;> rfl

/-! ## Directories -/

theorem keeps_makeOne {path : Text} :
    (fileSystem.makeOne path).Keeps others own (fun _ _ => True) d := by
  unfold FileSystem.makeOne
  refine (keeps_blindly fun e => alters_makeDirectory).bind fun r e _ => ?_
  cases r with
  | ok _ => exact keeps_pure fun _ _ => trivial
  | error fault =>
    refine (keeps_blindly fun e => .refl e).bind fun r e _ => ?_
    split
    · exact keeps_pure fun _ _ => trivial
    · exact keeps_pure fun _ _ => trivial

/-- Making directories writes no file. -/
theorem keeps_makeAll (path : Text) (d : Disk) :
    (fileSystem.makeAll path).Keeps others own (fun _ _ => True) d := by
  rw [FileSystem.makeAll]
  refine (keeps_blindly fun e => .refl e).bind fun r e _ => ?_
  match r with
  | .ok .directory => exact keeps_pure fun _ _ => trivial
  | .ok .file => exact keeps_pure fun _ _ => trivial
  | .error _ =>
    dsimp only
    split
    · exact keeps_makeOne
    · split
      next hlt =>
        refine (keeps_makeAll (Path.parent path) e).bind fun r e _ => ?_
        cases r with
        | error _ => exact keeps_pure fun _ _ => trivial
        | ok _ => exact keeps_makeOne
      next => exact keeps_makeOne
termination_by path.size

/-! ## Files -/

theorem keeps_contents {path : Text} {data : Bytes} (hread : d.read path = .ok data)
    (hpath : ∀ x, ¬ others (spot d.here path) x) :
    (fileSystem.contents path).Keeps others own (fun r e => Alters others d e ∧ r = .ok data) d := by
  unfold FileSystem.contents
  refine Keeps.bind (Q := fun (r : Except FileFault Bytes) e => Alters others d e ∧ r = .ok data)
    (keeps_perform fun e hde => ⟨.refl e, fun c hec => ⟨hde.trans hec, hde.read_ok hpath hread⟩⟩)
    fun r e hr => ?_
  obtain ⟨hde, rfl⟩ := hr
  exact keeps_pure fun c hec => ⟨hde.trans hec, rfl⟩

/-- What is written can be read until somebody else writes there. -/
theorem keeps_replace {here : List Text} {path : Text} {data : Bytes} (hhere : d.here = here)
    (hown : own (spot here path) data) (hpath : ∀ x, ¬ others (spot here path) x) :
    (fileSystem.replace path data).Keeps others own
      (fun r e => e.here = here ∧ (r = .ok () → e.read path = .ok data)) d := by
  unfold FileSystem.replace
  refine Keeps.bind (Q := fun (r : Except FileFault Unit) e =>
      e.here = here ∧ (r = .ok () → e.read path = .ok data))
    (keeps_perform fun e hde => ?_) fun r e hr => ?_
  · have hmid := hde.here.trans hhere
    have halters := alters_write e path data
    rw [hmid] at halters
    refine ⟨halters.mono ?_, fun c hec => ?_⟩
    · rintro p x ⟨rfl, rfl⟩
      exact hown
    · refine ⟨hec.here.trans (halters.here.trans hmid), fun hok => ?_⟩
      cases hwrite : e.write path data with
      | error fault =>
        rw [fileSystem_write_error hwrite] at hok
        cases hok
      | ok e' =>
        rw [fileSystem_write_ok hwrite] at hec halters
        refine hec.read_ok ?_ (read_of_write hwrite)
        rw [halters.here, hmid]
        exact hpath
  · refine keeps_pure fun c hec => ⟨hec.here.trans hr.1, fun hok => ?_⟩
    cases r with
    | error fault => cases hok
    | ok _ => exact hec.read_ok (hr.1 ▸ hpath) (hr.2 rfl)

/-! ## Work that nobody interrupts -/

theorem run_bind : (w >>= k).run = w.run >>= fun a => (k a).run := by
  induction w with
  | done a => rfl
  | act change next ih => exact funext fun d => congrFun (ih d) (change d)

theorem run_makeOne {path : Text} : (fileSystem.makeOne path).run = Disk.fileSystem.makeOne path := by
  unfold FileSystem.makeOne
  rw [run_bind]
  refine bind_congr fun r => ?_
  cases r with
  | ok _ => rfl
  | error fault =>
    rw [run_bind]
    refine bind_congr fun k => ?_
    match k with
    | .ok .directory => rfl
    | .ok .file => rfl
    | .error _ => rfl

theorem run_makeAll (path : Text) : (fileSystem.makeAll path).run = Disk.fileSystem.makeAll path := by
  rw [FileSystem.makeAll, FileSystem.makeAll, run_bind]
  refine bind_congr fun k => ?_
  match k with
  | .ok .directory => rfl
  | .ok .file => rfl
  | .error _ =>
    dsimp only
    split_ifs
    · exact run_makeOne
    · rw [run_bind, run_makeAll (Path.parent path)]
      refine bind_congr fun r => ?_
      cases r with
      | error _ => rfl
      | ok _ => exact run_makeOne
    · exact run_makeOne
termination_by path.size

theorem run_contents {path : Text} :
    (fileSystem.contents path).run = Disk.fileSystem.contents path := by
  unfold FileSystem.contents
  rw [run_bind]
  refine bind_congr fun r => ?_
  match r with
  | .ok _ => rfl
  | .error .isDirectory => rfl
  | .error .noEntry => rfl
  | .error .notDirectory => rfl
  | .error .exists => rfl
  | .error (.other _) => rfl

end Work

/-! ## One unit of a batch -/

namespace Batch

variable {o : Options} {input : Input} {data out : Bytes} {here : List Text} {d : Disk}

/-- What the work for one unit writes, and where. -/
def writesOf (o : Options) (here : List Text) (input : Input) (data : Bytes) (p : List Text)
    (out : Bytes) : Prop :=
  p = spot here (destination o input) ∧
    ∃ r, outcome o input.path data = .ok (out, r) ∧ isWritten o r

/-- How the work for one unit ends. Only a write can fail besides the transformation, and what is
reported as written can be read there. -/
def Accomplished (o : Options) (input : Input) (data : Bytes) (result : Except Failure FileResult)
    (e : Disk) : Prop :=
  match outcome o input.path data with
  | .error f => result = .error f
  | .ok (out, r) =>
    if isWritten o r then
      (∃ error, result = .ok { r with status := .failed error }) ∨
        result = .ok { r with output := destination o input } ∧
          e.read (destination o input) = .ok out
    else result = .ok r

theorem accomplished_iff {r : FileResult} {result : Except Failure FileResult}
    {e : Disk} (h : outcome o input.path data = .ok (out, r)) :
    Accomplished o input data result e ↔
      if isWritten o r then
        (∃ error, result = .ok { r with status := .failed error }) ∨
          result = .ok { r with output := destination o input } ∧
            e.read (destination o input) = .ok out
      else result = .ok r := by
  unfold Accomplished
  rw [h]

/-- Writing a unit into its directory. -/
theorem keeps_write {others own : List Text → Bytes → Prop} {dest : Text}
    (hhere : d.here = here) (hown : own (spot here dest) out)
    (hdest : ∀ x, ¬ others (spot here dest) x) :
    (write Work.fileSystem o dest out).Keeps others own
      (fun r e => e.here = here ∧ (r = .ok () → e.read dest = .ok out)) d := by
  have hreplace : ∀ e : Disk, e.here = here → (Work.fileSystem.replace dest out).Keeps others own
      (fun r e => e.here = here ∧ (r = .ok () → e.read dest = .ok out)) e :=
    fun e he => Work.keeps_replace he hown hdest
  unfold write
  dsimp only
  split
  · exact hreplace d hhere
  · refine (Work.keeps_makeAll _ d).here.bind fun r e he => ?_
    have hmid := he.2.trans hhere
    cases r with
    | error error => exact Work.keeps_pure fun c hec => ⟨hec.here.trans hmid, fun h => by cases h⟩
    | ok _ => exact hreplace e hmid

/-- **The work for one unit** under interference that spares its input and its destination. -/
theorem keeps_process {others : List Text → Bytes → Prop} (hhere : d.here = here)
    (hread : d.read input.path = .ok data) (hin : ∀ x, ¬ others (spot here input.path) x)
    (hout : ∀ x, ¬ others (spot here (destination o input)) x) :
    Work.Keeps others (writesOf o here input data) (Accomplished o input data)
      (process Work.fileSystem o input) d := by
  have hread' : Work.Keeps others (writesOf o here input data)
      (fun r e => Alters others d e ∧ r = .ok data) (Work.fileSystem.contents input.path) d :=
    Work.keeps_contents hread (hhere.symm ▸ hin)
  unfold process
  rw [Work.lift_bind]
  refine hread'.bind fun r e hr => ?_
  obtain ⟨hde, rfl⟩ := hr
  have hmid := hde.here.trans hhere
  dsimp only
  rw [Work.mk_bind]
  cases houtcome : outcome o input.path data with
  | error f =>
    refine Work.keeps_pure fun c _ => ?_
    unfold Accomplished
    rw [houtcome]
  | ok result =>
    obtain ⟨out, r⟩ := result
    dsimp only
    cases hwritten : isWritten o r with
    | false =>
      refine Work.keeps_pure fun c _ => (accomplished_iff houtcome).mpr ?_
      rw [if_neg (by simp [hwritten])]
    | true =>
      have hown : writesOf o here input data (spot here (destination o input)) out :=
        ⟨rfl, r, houtcome, hwritten⟩
      rw [Bool.not_true, if_neg Bool.false_ne_true, Work.lift_bind]
      refine (keeps_write hmid hown hout).bind fun w c hw => ?_
      cases w with
      | error error =>
        refine Work.keeps_pure fun c' _ => (accomplished_iff houtcome).mpr ?_
        rw [if_pos hwritten]
        exact .inl ⟨error, rfl⟩
      | ok _ =>
        refine Work.keeps_pure fun c' hcc' => (accomplished_iff houtcome).mpr ?_
        rw [if_pos hwritten]
        exact .inr ⟨rfl, hcc'.read_ok (hw.1 ▸ hout) (hw.2 rfl)⟩

theorem run_write {dest : Text} :
    (write Work.fileSystem o dest out).run = write Disk.fileSystem o dest out := by
  unfold write
  dsimp only
  split_ifs
  · rfl
  · rw [Work.run_bind, Work.run_makeAll]
    refine bind_congr fun made => ?_
    cases made with
    | error e | ok _ => rfl

theorem lift_bind_state {α β : Type} {x : StateM Disk α} {k : α → ExceptT Failure (StateM Disk) β} :
    (ExceptT.lift x >>= k : ExceptT Failure (StateM Disk) β) =
      (x >>= fun a => k a : StateM Disk (Except Failure β)) := rfl

/-- Work that nobody interrupts is what is done one after the other. -/
theorem run_process :
    Work.run (process Work.fileSystem o input) = process Disk.fileSystem o input := by
  unfold process
  rw [Work.lift_bind, Work.run_bind, Work.run_contents, lift_bind_state]
  refine congrArg _ (funext fun r => ?_)
  cases r with
  | error e => rfl
  | ok data =>
    dsimp only
    cases houtcome : outcome o input.path data with
    | error f => rfl
    | ok result =>
      obtain ⟨out, r⟩ := result
      rw [Work.mk_bind]
      show Work.run (if _ then _ else _) = if _ then _ else _
      split_ifs
      · rfl
      · rw [Work.lift_bind, Work.run_bind, run_write, lift_bind_state]
        refine congrArg _ (funext fun r => ?_)
        cases r <;> rfl

end Batch

end Resumable
