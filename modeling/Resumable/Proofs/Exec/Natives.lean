import Resumable.Proofs.Exec.Bookkeeping

/-!
# What natives do to machines

Of the natives of every program, only the one that suspends has to do with machines. It makes a machine
if it is not given one, and asks for a resumption. The others leave machines alone.
-/

namespace Resumable

open List

namespace NativeM

variable {α β : Type} {P : α → Prop} {Q : β → Prop} {x : NativeM α} {k : α → NativeM β} {s : Store}

theorem run_bind : ExceptT.run (x >>= k) s =
    match ExceptT.run x s with
    | (.ok a, s') => ExceptT.run (k a) s'
    | (.error e, s') => (.error e, s') := by
  rw [ExceptT.run_bind]
  show StateT.bind (ExceptT.run x) _ s = _
  unfold StateT.bind
  rcases ExceptT.run x s with ⟨_ | _, s'⟩ <;> rfl

/-- Work that only looks at the store. -/
def Reads (x : NativeM α) : Prop := ∀ s, (ExceptT.run x s).2 = s

theorem run_bind_of_reads (hx : x.Reads) : ExceptT.run (x >>= k) s =
    match (ExceptT.run x s).1 with
    | .ok a => ExceptT.run (k a) s
    | .error e => (.error e, s) := by
  have h := hx s
  rw [run_bind]
  rcases hr : ExceptT.run x s with ⟨_ | _, s'⟩ <;> rw [hr] at h <;> cases h <;> rfl

theorem Reads.bind (hx : x.Reads) (hk : ∀ a, (k a).Reads) : (x >>= k).Reads := by
  intro s
  rw [run_bind_of_reads hx]
  cases (ExceptT.run x s).1 with
  | error e => rfl
  | ok a => exact hk a s

theorem reads_pure {a : α} : (pure a : NativeM α).Reads := fun _ => rfl

theorem reads_throw {f : Failure} : (throw f : NativeM α).Reads := fun _ => rfl

theorem reads_get : (get : NativeM Store).Reads := fun _ => rfl

theorem Reads.fair (hx : x.Reads) (hP : ∀ s a, (ExceptT.run x s).1 = .ok a → P a) :
    NativeM.Fair P x := fun s => ⟨by rw [hx s]; exact .refl s, hP s⟩

theorem Fair.bind (hx : NativeM.Fair P x) (hk : ∀ a, P a → NativeM.Fair Q (k a)) :
    NativeM.Fair Q (x >>= k) := by
  intro s
  obtain ⟨hs, hP⟩ := hx s
  rw [run_bind]
  rcases hr : ExceptT.run x s with ⟨e | a, s'⟩
  · rw [hr] at hs
    exact ⟨hs, fun _ h => by cases h⟩
  · rw [hr] at hs hP
    obtain ⟨hs', hQ⟩ := hk a (hP a rfl) s'
    exact ⟨hs.trans hs', hQ⟩

theorem Fair.bind_reads (hx : x.Reads) (hk : ∀ a, NativeM.Fair Q (k a)) : NativeM.Fair Q (x >>= k) :=
  Fair.bind (hx.fair (P := fun _ => True) fun _ _ _ => trivial) fun a _ => hk a

theorem fair_pure {a : α} (ha : P a) : NativeM.Fair P (pure a) :=
  reads_pure.fair fun _ _ h => by cases h; exact ha

theorem fair_throw {f : Failure} : NativeM.Fair P (throw f : NativeM α) :=
  reads_throw.fair fun _ _ h => by cases h

end NativeM

namespace Native

open NativeM

variable {c : Invocation} {i : Nat}

theorem reads_arg : (arg c i).Reads := by
  unfold arg
  split
  · exact reads_pure
  · exact reads_throw

theorem reads_futureArg : (futureArg c i).Reads := by
  refine reads_arg.bind fun v => ?_
  split
  · exact reads_pure
  · exact reads_throw
  · exact reads_get.bind fun _ => reads_throw

theorem reads_textArg : (textArg c i).Reads := by
  refine reads_arg.bind fun v => ?_
  split
  · exact reads_pure
  · exact reads_pure

theorem fair_newFuture {f : Future} (hf : f.callbacks = []) :
    NativeM.Fair Reply.Fair (newFuture f) := by
  intro s
  refine ⟨⟨⟨[f], rfl, by simpa using hf⟩, rfl⟩, fun r hr => ?_⟩
  cases hr
  trivial

theorem fair_join : NativeM.Fair Reply.Fair (join c) := by
  refine .bind_reads reads_futureArg fun f => .bind_reads reads_get fun s => ?_
  split
  · exact fair_pure trivial
  · exact fair_throw
  · exact fair_throw

/-- **The natives of every program leave machines alone,** but for the one that suspends. -/
theorem fair_builtin {key : Text} {native : Native} (h : builtin? key = some native) :
    native = suspend ∨ ∀ c, NativeM.Fair Reply.Fair (native c) := by
  have hvalue {v : Value} : NativeM.Fair Reply.Fair (pure (Reply.value v)) := fair_pure trivial
  obtain ⟨l₁, l₂, hl, -⟩ := List.lookup_eq_some_iff.mp h
  have hmem : (key, native) ∈ l₁ ++ (key, native) :: l₂ := by simp
  rw [← hl] at hmem
  simp only [mem_cons, Prod.mk.injEq, not_mem_nil, or_false] at hmem
  rcases hmem with ⟨-, rfl⟩ | ⟨-, rfl⟩ | ⟨-, rfl⟩ | ⟨-, rfl⟩ | ⟨-, rfl⟩ | ⟨-, rfl⟩ | ⟨-, rfl⟩ |
    ⟨-, rfl⟩ | ⟨-, rfl⟩ | ⟨-, rfl⟩ | ⟨-, rfl⟩ | ⟨-, rfl⟩ | ⟨-, rfl⟩ | ⟨-, rfl⟩
  · exact .inr fun c => .bind_reads reads_futureArg fun f => .bind_reads reads_get fun s => hvalue
  · exact .inr fun c => fair_join
  · exact .inr fun c => .bind_reads reads_arg fun v => fair_newFuture rfl
  · refine .inr fun c => .bind_reads reads_arg fun v => ?_
    split
    · exact fair_newFuture rfl
    · exact fair_throw
  · exact .inr fun c => fair_newFuture rfl
  · refine .inr fun c => .bind (P := fun _ => True) (fun s => ?_) fun _ _ => fair_join
    exact ⟨⟨⟨[], (append_nil _).symm, by simp⟩, rfl⟩, fun _ _ => trivial⟩
  · exact .inl rfl
  · exact .inr fun c => .bind_reads reads_textArg fun t => hvalue
  · refine .inr fun c => .bind_reads reads_arg fun v => ?_
    split
    · exact hvalue
    · exact fair_throw
  · exact .inr fun c => .bind_reads reads_textArg fun a => .bind_reads reads_textArg fun b => hvalue
  · refine .inr fun c => .bind_reads reads_arg fun v => ?_
    split <;> exact hvalue
  · exact .inr fun c => .bind_reads reads_textArg fun t => hvalue
  · exact .inr fun c => .bind_reads reads_arg fun a => .bind_reads reads_arg fun b => hvalue
  · exact .inr fun c => .bind_reads reads_arg fun v => hvalue

/-- What a suspension does to the store and replies. -/
inductive Suspends (s : Store) : Except Failure Reply × Store → Prop
  | failure (f : Failure) : Suspends s (.error f, s)
  /-- A machine that is there is suspended. -/
  | known (m : Nat) (d : Parcel) (v : Value) (hm : m < s.machines.length) :
      Suspends s (.ok (.register d.awaited (d.callback m) v), s)
  /-- A new machine is suspended. -/
  | fresh (d : Parcel) (v : Value) (continuation cls : Text) :
      Suspends s (.ok (.register d.awaited (d.callback s.machines.length) v),
        (s.newMachine continuation cls).2)

/-- The machine is found or made, and the resumption is asked for. -/
theorem suspends_register (m : Value) (continuation : Text) (d : Parcel) (s : Store) :
    Suspends s (ExceptT.run (do
      let m ← suspendingMachine c m continuation
      match (← get).machines[m]? with
      | none => throw .outOfRange
      | some x => return .register d.awaited (d.callback m) (.future x.result)) s) := by
  unfold suspendingMachine
  split
  next m =>
    show Suspends s (ExceptT.run (match s.machines[m]? with
      | none => throw .outOfRange
      | some x => return .register d.awaited (d.callback m) (.future x.result) : NativeM Reply) s)
    cases hm : s.machines[m]? with
    | none => exact .failure _
    | some x => exact .known m d _ (List.getElem?_eq_some_iff.mp hm).1
  next =>
    cases hf : c.lookup continuation with
    | none => exact .failure _
    | some f =>
      have hmade : (s.newMachine continuation (promisedClass f)).2.machines[s.machines.length]? =
          some { continuation, result := s.futures.length } := getElem?_concat_length ..
      show Suspends s (ExceptT.run (match (s.newMachine continuation (promisedClass f)).2.machines[
          s.machines.length]? with
        | none => throw .outOfRange
        | some x => return .register d.awaited (d.callback s.machines.length) (.future x.result) :
          NativeM Reply) (s.newMachine continuation (promisedClass f)).2)
      rw [hmade]
      exact .fresh d _ continuation (promisedClass f)

theorem suspends_suspend (c : Invocation) (s : Store) :
    Suspends s (ExceptT.run (suspend c) s) := by
  have hbind {α : Type} {x : NativeM α} {k : α → NativeM Reply} (hx : x.Reads)
      (hk : ∀ a, Suspends s (ExceptT.run (k a) s)) : Suspends s (ExceptT.run (x >>= k) s) := by
    rw [run_bind_of_reads hx]
    split
    · exact hk _
    · exact .failure _
  refine hbind reads_arg fun m => hbind reads_futureArg fun awaited => hbind reads_arg fun state =>
    hbind reads_arg fun index => hbind reads_textArg fun continuation => ?_
  exact suspends_register m continuation ⟨_, _, awaited⟩ s

end Native

end Resumable
