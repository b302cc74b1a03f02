import Resumable.CodeUnit.Basic
import Resumable.Error

/-!
# Values

What locals, stack slots and futures hold. Futures, machines and objects have an identity and are
known by number; records and exceptions are plain data.
-/

namespace Resumable

/-- A thrown error. Its class is the root of errors or one below it. -/
structure Exception where
  cls : Text
  message : Text
  /-- The error that became this exception, if it was no exception to begin with. -/
  cause : Option Error := none
deriving DecidableEq, Repr, Inhabited

namespace Exception

/-- An exception of the root class. -/
def ofText (message : Text) : Exception := { cls := ClassName.error, message }

/-- The class, and the message if there is one. -/
def text (e : Exception) : Text := exceptionText e.cls e.message

/-- An exception that nothing caught, as an error. -/
def toError (e : Exception) : Error := .of (.exception e.cls e.message) e.cause

end Exception

namespace Error

/-- The first exception in a chain. -/
def exception? : Error → Option Exception
  | .plain (.exception cls message) => some { cls, message }
  | .because (.exception cls message) cause => some { cls, message, cause := some cause }
  | .because _ cause => cause.exception?
  | .plain _ => none

/-- The exception in a chain, or a new one about the whole chain. -/
def asException (e : Error) : Exception :=
  e.exception?.getD { cls := ClassName.error, message := e.message, cause := some e }

/-- Does an incident end a call for good? Faults of a program do, and so does a caller that does not
wait any longer. -/
def endsCall : Incident → Bool
  | .report _ | .deadline | .cancelled => true
  | _ => false

/-- The exception that an error raises in the caller; nothing if it ends the caller as well. -/
def raised? (e : Error) : Option Exception :=
  match e.exception? with
  | some x => some x
  | none => if e.chain.any endsCall then none else some e.asException

end Error

/-- A value. -/
inductive Value
  | null
  | int (n : Int64)
  /-- An integer that comes from outside and was not yet passed to a function. -/
  | outer (n : Int64)
  | str (t : Text)
  | exception (e : Exception)
  /-- An object of a class that only natives know about. -/
  | object (id : Nat) (cls : Text)
  /-- Captured state. -/
  | record (layout : UInt32) (fields : List Value)
  /-- What a resumption hands over as state if no record was captured. It is not null. -/
  | noRecord
  /-- A suspended invocation. -/
  | machine (id : Nat)
  | future (id : Nat)
deriving Repr, Inhabited

namespace Value

/-- A value as a function sees it. -/
def received : Value → Value
  | outer n => int n
  | v => v

/-- One for true and zero for false. -/
def ofBool (b : Bool) : Value := int (if b then 1 else 0)

/-- Is it null? -/
def isNull : Value → Bool
  | null => true
  | _ => false

end Value

end Resumable
