import Resumable.Exec.Native

/-!
# Scripted natives

Natives whose behaviour is given as data. They leave an event in the trace and then do one simple
thing, so that a unit can be watched without the host that it was written for.
-/

namespace Resumable

/-- How a value is made. Objects are new each time, and a name stands for the value that has it
then. -/
inductive Recipe
  | value (v : Value)
  | object (cls : Text)
  | record (layout : UInt32) (fields : List Recipe)
  | named (name : Text)
deriving Repr, Inhabited

namespace Recipe

mutual

/-- Makes a value. A name that nothing has stands for null. -/
def make : Recipe → StateM Store Value
  | value v => return v
  | object cls => modifyGet fun s => s.newObject cls
  | record layout fields => return .record layout (← makeAll fields)
  | named name => return ((← get).named? name).getD .null

/-- Makes values one after the other. -/
def makeAll : List Recipe → StateM Store (List Value)
  | [] => return []
  | r :: rest => return (← make r) :: (← makeAll rest)

end

end Recipe

/-- What a scripted native does. -/
inductive Script
  | throw (e : Exception)
  /-- Fails with an error that wraps an exception. -/
  | wrap (e : Exception)
  /-- Fails with a plain text. -/
  | error (message : Text)
  /-- Fails with a fault. -/
  | fault (message : Text)
  | cancel
  | deadline
  /-- Replies with one of the arguments. -/
  | arg (index : Int)
  /-- Calls a function with the arguments. -/
  | call (function : Text)
  /-- Makes a pending future and names it. -/
  | future (cls : Text)
  /-- Replies with a value. -/
  | reply (r : Recipe)
deriving Repr, Inhabited

/-- Does what a script says. -/
def Script.perform (c : Invocation) : Script → NativeM Reply
  | throw e => Native.raise e
  | wrap e => MonadExcept.throw (.error (.because (.note ("wrapped: " ++ e.text)) e.toError))
  | error message => MonadExcept.throw (.error (.ofText message))
  | fault message => MonadExcept.throw (.error (.invalidInput .runtime message))
  | cancel => MonadExcept.throw (.error (.plain .cancelled))
  | deadline =>
    MonadExcept.throw
      (.error (.because (.note "native: context deadline exceeded") (.plain .deadline)))
  | arg (.ofNat i) => return .value (← Native.arg c i)
  | arg (.negSucc _) => MonadExcept.throw .outOfRange
  | call f => return .act (.call f c.args c.patience .done)
  | future cls => return .value (← modifyGet fun s => s.spawn cls)
  | reply r => return .value (← ExceptT.lift r.make)

/-- The native with a key that follows a script. -/
def Script.native (key : Text) (script : Script) : Native := fun c => do
  modify (·.note (.native key c.args c.function c.instr))
  script.perform c

end Resumable
