import Resumable.CodeUnit.Body
import Resumable.CodeUnit.StackBound
import Resumable.Emission.Fragment
import Resumable.Typing.Analysis

/-!
# From a fragment to a function

The bounds, the handler table and the frame table of an emitted function are computed from its code.
Verification reads a function back and compares what it declares with what its code needs.
-/

namespace Resumable

/-- How many locals a body needs: at least its parameters and `floor`, and one more than the highest
local that it reads or writes. -/
def localsNeeded (is : List Instr) (params : Nat) (floor : UInt32) : UInt32 :=
  (is.filterMap Instr.slot?).foldl (fun n slot => if n < slot + 1 then slot + 1 else n)
    (if floor < UInt32.ofNat params then UInt32.ofNat params else floor)

/-- A way to compute the frame table of a function. -/
abbrev FrameTable := Func → List Instr → Attempt (List FrameEntry)

/-- The function that a fragment makes, with the name, the signature and the flags of `proto`. It
has at least as many locals as `proto`. -/
def Fragment.build {Label : Type} [BEq Label] (number : Label → Int) (u : CodeUnit)
    (code : Fragment Label) (proto : Func) (frames : FrameTable) : Attempt Func := do
  let (is, handlers) ← match code.finish with
    | .ok result => pure result
    | .error fault => Attempt.fail (.internal .transform proto.name (fault.message number))
  let f := { proto with
    code := Instr.encodeAll is
    handlers
    maxLocals := localsNeeded is proto.params.length proto.maxLocals
    frames := [] }
  let refused (e : Error) : Error := .verify proto.name (some e)
  let bound ← (u.stackBound is handlers).mapError refused
  let f := { f with maxStack := bound }
  return { f with frames := ← (frames f is).mapError refused }

/-! ### Verification -/

/-- Where the declaration of a function does not fit its code. -/
inductive VerifyFault
  | body (fault : BodyFault)
  | stack (needed declared : UInt32)
  | locals (needed declared : UInt32)
  | frameCount (declared found : Nat)
  | framePlace (index : Nat) (declared found : UInt32)
  | frameLocals (instr : UInt32) (declared found : List Ty)
  | frameStack (instr : UInt32) (declared found : List Ty)
deriving DecidableEq, Repr

/-- The text of a fault. -/
def VerifyFault.message : VerifyFault → Text
  | .body fault => fault.message
  | .stack needed declared =>
    "stack bound " ++ nat needed ++ " exceeds declared " ++ nat declared
  | .locals needed declared => "needs " ++ nat needed ++ " locals, declares " ++ nat declared
  | .frameCount declared found =>
    "frame table has " ++ Text.ofNat declared ++ " entries, analysis found " ++ Text.ofNat found ++
      " blocks"
  | .framePlace k declared found =>
    "frame " ++ Text.ofNat k ++ ": declared at " ++ nat declared ++ ", expected at " ++ nat found
  | .frameLocals pc declared found =>
    "frame at " ++ nat pc ++ ": locals " ++ types declared ++ ", expected " ++ types found
  | .frameStack pc declared found =>
    "frame at " ++ nat pc ++ ": stack " ++ types declared ++ ", expected " ++ types found
where
  nat (n : UInt32) : Text := Text.ofNat n.toNat
  types (ts : List Ty) : Text := "[" ++ Text.join " " (ts.map Ty.text) ++ "]"

/-- Compares entry `index` of the declared frame table with the computed one. -/
def FrameEntry.compare (declared found : FrameEntry) (index : Nat) : Except VerifyFault Unit :=
  if declared.instr ≠ found.instr then .error (.framePlace index declared.instr found.instr)
  else if declared.locals ≠ found.locals then
    .error (.frameLocals declared.instr declared.locals found.locals)
  else if declared.stack ≠ found.stack then
    .error (.frameStack declared.instr declared.stack found.stack)
  else .ok ()

/-- Compares two frame tables. -/
def compareFrames (declared found : List FrameEntry) : Except VerifyFault Unit :=
  if declared.length ≠ found.length then .error (.frameCount declared.length found.length)
  else (declared.zip found).zipIdx.forM fun ((d, c), k) => d.compare c k

/-- Checks that a function declares what its code needs. -/
def Analyzer.verify (a : Analyzer) (f : Func) : Attempt Unit :=
  Attempt.mapError (fun e => .verify f.name (some e)) do
    let is ← Attempt.ofExcept VerifyFault.message ((a.unit.bodyOf f).mapError .body)
    let bound ← a.unit.stackBound is f.handlers
    Attempt.ofExcept VerifyFault.message (do
      if f.maxStack < bound then throw (.stack bound f.maxStack)
      let needed := localsNeeded is f.params.length 0
      if f.maxLocals < needed then throw (.locals needed f.maxLocals))
    let found ← a.blockFrames f is
    Attempt.ofExcept VerifyFault.message (compareFrames f.frames found)

end Resumable
