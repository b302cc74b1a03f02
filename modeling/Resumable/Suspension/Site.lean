import Resumable.Hierarchy
import Resumable.Instr.Basic
import Resumable.Suspension.Matcher

/-!
# Suspending calls

Where a body makes suspending calls, and whether it may: the function has to return a future, every
such call takes one future and gives back a reference or nothing, and the name of the continuation
must be free.
-/

namespace Resumable

/-- Why the suspending calls of a function cannot be used. -/
inductive UsageFault
  | result (type : Ty)
  | params (call : Symbol)
  | callResult (call : Symbol)
  | defined
deriving DecidableEq, Repr

/-- The text of a fault in a function. -/
def UsageFault.message (function : Text) (fault : UsageFault) : Text :=
  "Invalid use of await in " ++ function ++ ": " ++
  match fault with
  | .result type => "the result type " ++ type.text ++ " is not a Future"
  | .params call => call.text ++ " must take a single Future"
  | .callResult call => call.text ++ " must return a reference"
  | .defined => function ++ continuationSuffix ++ " is already defined"

/-- Is a type a class of futures? -/
def Hierarchy.isFuture (h : Hierarchy) : Ty → Bool
  | .ref cls => h.isSubclass cls ClassName.future
  | _ => false

namespace CodeUnit

/-- The symbol that an instruction calls. -/
def callee? (u : CodeUnit) : Instr → Option Symbol
  | .invoke n => item? u.symbols n
  | _ => none

/-- Does an instruction make a suspending call? Functions of the same unit never suspend by
themselves. -/
def suspends (u : CodeUnit) (matcher : CallMatcher) (i : Instr) : Bool :=
  match u.callee? i with
  | some s => !s.owner.isEmpty && matcher s.owner s.name
  | none => false

/-- The instructions of a body that make suspending calls, in order. -/
def sites (u : CodeUnit) (matcher : CallMatcher) (is : List Instr) : List Nat :=
  (List.range is.length).filter fun pc => (is[pc]?).any (u.suspends matcher)

/-- Checks one suspending call. -/
def checkCall (h : Hierarchy) (s : Symbol) : Except UsageFault Unit :=
  match s.params, s.result with
  | [p], r =>
    if !h.isFuture p then .error (.params s)
    else
      match r with
      | .void | .ref _ => .ok ()
      | _ => .error (.callResult s)
  | _, _ => .error (.params s)

/-- Checks that the suspending calls of a function can be used. -/
def checkUsage (u : CodeUnit) (h : Hierarchy) (f : Func) (is : List Instr) (sites : List Nat) :
    Except UsageFault Unit := do
  if !h.isFuture f.result then throw (.result f.result)
  (sites.filterMap fun pc => (is[pc]?).bind u.callee?).forM (checkCall h)
  if (u.findFunction (f.name ++ continuationSuffix)).isSome then throw .defined

end CodeUnit

end Resumable
