import Resumable.Instr.Codec

/-!
# Function bodies

The code of a function is decoded and every index in it is checked against the unit: branch
targets, locals, strings, symbols, layouts, fields and handler ranges. Code that passed can be
walked without a look-up ever failing.
-/

namespace Resumable

/-- Why a function has no usable body. -/
inductive BodyFault
  | noSuchFunction (index : Int)
  | code (fault : CodeFault)
  | empty
  | tooManyParams (params : Nat) (locals : UInt32)
  | branchTarget (pc : Nat) (target : UInt32) (count : Nat)
  | localSlot (pc : Nat) (slot : UInt32) (locals : UInt32)
  | string (pc : Nat) (index : UInt32)
  | classString (pc : Nat) (index : UInt32)
  | symbol (pc : Nat) (index : UInt32)
  | layout (pc : Nat) (index : UInt32)
  | field (pc : Nat) (index : UInt32)
  | handlerRange (handler : Nat) (start stop : UInt32)
  | handlerTarget (handler : Nat) (target : UInt32)
  | handlerKind (handler : Nat) (kind : UInt8)
deriving DecidableEq, Repr

/-- The text of a fault. -/
def BodyFault.message : BodyFault → Text
  | .noSuchFunction i => "function index " ++ Text.ofInt i ++ " out of range"
  | .code fault => fault.message
  | .empty => "empty function body"
  | .tooManyParams params locals =>
    Text.ofNat params ++ " params exceed " ++ nat locals ++ " locals"
  | .branchTarget pc t n =>
    instr pc ++ "branch target " ++ nat t ++ " out of range (" ++ Text.ofNat n ++ " instructions)"
  | .localSlot pc i n => instr pc ++ "local " ++ nat i ++ " out of range (max " ++ nat n ++ ")"
  | .string pc i => instr pc ++ "string " ++ nat i ++ " out of range"
  | .classString pc i => instr pc ++ "class string " ++ nat i ++ " out of range"
  | .symbol pc i => instr pc ++ "symbol " ++ nat i ++ " out of range"
  | .layout pc i => instr pc ++ "record layout " ++ nat i ++ " out of range"
  | .field pc i => instr pc ++ "field " ++ nat i ++ " out of range"
  | .handlerRange k a b =>
    handler k ++ "invalid range [" ++ nat a ++ ", " ++ nat b ++ ")"
  | .handlerTarget k t => handler k ++ "target " ++ nat t ++ " out of range"
  | .handlerKind k kind => handler k ++ "unknown kind " ++ Text.ofNat kind.toNat
where
  nat (n : UInt32) : Text := Text.ofNat n.toNat
  instr (pc : Nat) : Text := "instruction " ++ Text.ofNat pc ++ ": "
  handler (k : Nat) : Text := "handler " ++ Text.ofNat k ++ ": "

namespace CodeUnit

/-- Checks the operands of the instruction at `pc`, in a function with `locals` locals. -/
def checkOperands (u : CodeUnit) (locals : UInt32) (pc : Nat) : Instr → Except BodyFault Unit
  | .load n | .store n => if n < locals then .ok () else .error (.localSlot pc n locals)
  | .sconst n => if n.toNat < u.strings.length then .ok () else .error (.string pc n)
  | .checkcast n | .instanceof n =>
    if n.toNat < u.strings.length then .ok () else .error (.classString pc n)
  | .invoke n => if n.toNat < u.symbols.length then .ok () else .error (.symbol pc n)
  | .newrec n => if n.toNat < u.records.length then .ok () else .error (.layout pc n)
  | .recget n f =>
    match item? u.records n with
    | none => .error (.layout pc n)
    | some l => if f.toNat < l.fields.length then .ok () else .error (.field pc f)
  | _ => .ok ()

/-- Checks the instruction at `pc` of a body of `count` instructions. -/
def checkInstr (u : CodeUnit) (locals : UInt32) (count pc : Nat) (i : Instr) :
    Except BodyFault Unit :=
  match i.targets.find? (fun t => count ≤ t.toNat) with
  | some t => .error (.branchTarget pc t count)
  | none => u.checkOperands locals pc i

/-- Checks entry `k` of the handler table over a body of `count` instructions. -/
def checkHandler (count k : Nat) (h : Handler) : Except BodyFault Unit :=
  if h.stop ≤ h.start || count < h.stop.toNat then .error (.handlerRange k h.start h.stop)
  else if count ≤ h.target.toNat then .error (.handlerTarget k h.target)
  else if h.kind ≠ Handler.catchKind && h.kind ≠ Handler.cleanupKind then
    .error (.handlerKind k h.kind)
  else .ok ()

/-- The checked instructions of a function. -/
def bodyOf (u : CodeUnit) (f : Func) : Except BodyFault (List Instr) := do
  let is ← (Instr.decodeAll f.code).mapError .code
  if is.isEmpty then throw .empty
  if f.maxLocals.toNat < f.params.length then throw (.tooManyParams f.params.length f.maxLocals)
  (is.zipIdx).forM fun (i, pc) => u.checkInstr f.maxLocals is.length pc i
  (f.handlers.zipIdx).forM fun (h, k) => checkHandler is.length k h
  return is

/-- The function with an index. -/
def function? (u : CodeUnit) : Int → Option Func
  | .ofNat i => u.functions[i]?
  | .negSucc _ => none

/-- The checked instructions of the function with an index. -/
def body (u : CodeUnit) (index : Int) : Except BodyFault (List Instr) :=
  match u.function? index with
  | none => .error (.noSuchFunction index)
  | some f => u.bodyOf f

end CodeUnit

end Resumable
