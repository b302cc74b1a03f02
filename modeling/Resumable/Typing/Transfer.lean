import Resumable.Error
import Resumable.Instr.Basic
import Resumable.Typing.Frame

/-!
# What an instruction does to a frame

Every instruction checks the types that it takes and gives types to what it leaves. A null has no
class until it is used where one is wanted; such a use is recorded as a resolution.
-/

namespace Resumable

/-- A null that was used as a type: the stack slot, counted from the bottom, that an instruction
took. -/
structure Resolution where
  instr : Nat
  slot : Nat
  type : Ty
deriving DecidableEq, Repr

/-- What the types of a body depend on. -/
structure TypingContext where
  unit : CodeUnit
  classes : Hierarchy
  function : Text
  result : Ty

/-- A frame that is being changed, and the resolutions found. -/
structure TypingState where
  frame : Frame
  resolved : List Resolution := []
deriving DecidableEq, Repr

/-- A step of the change. A fault leaves the resolutions that were found before it. -/
abbrev Transfer := ExceptT Failure (StateM TypingState)

namespace Transfer

variable (ctx : TypingContext) (pc : Nat)

/-- A report about the instruction at `pc`. -/
def fault {α : Type} (problem : Problem) (detail : Text) : Transfer α :=
  throw (.error (.ofReport
    { phase := .analyze, problem, function := ctx.function, instr := pc, detail }))

/-- A value of type `got` where `want` is wanted. -/
def mismatch {α : Type} (want got : Ty) : Transfer α :=
  throw (.error (.typeMismatch .analyze ctx.function pc want.text got.text))

/-- An entry of a table. -/
def entry {α : Type} (table : List α) (i : UInt32) : Transfer α :=
  match item? table i with
  | some a => return a
  | none => throw .outOfRange

/-- The number of stack slots. -/
def height : Transfer Nat := return (← get).frame.stack.length

def push (t : Ty) : Transfer Unit :=
  modify fun s => { s with frame.stack := t :: s.frame.stack }

def pop : Transfer Ty := do
  match (← get).frame.stack with
  | [] => fault ctx pc .stackUnderflow "operand stack underflow"
  | t :: rest =>
    modify fun s => { s with frame.stack := rest }
    return t

/-- Takes an integer. -/
def popInt : Transfer Unit := do
  let t ← pop ctx pc
  if t = .int then return () else mismatch ctx pc .int t

/-- Takes a reference. -/
def popRef : Transfer Ty := do
  let t ← pop ctx pc
  if t.isReference then return t else mismatch ctx pc (.ref ClassName.object) t

/-- Records that the null in a slot was used as a type. -/
def resolve (slot : Nat) (type : Ty) : Transfer Unit :=
  modify fun s => { s with resolved := s.resolved ++ [{ instr := pc, slot, type }] }

/-- Takes a value that can be used as a `want`. -/
def popAs (want : Ty) : Transfer Unit := do
  let slot := (← height) - 1
  let t ← pop ctx pc
  if !ctx.classes.assignable t want then mismatch ctx pc want t
  match t, want with
  | .null, .ref _ => resolve pc slot want
  | _, _ => return ()

/-- Takes values for a list of types, the last one first. -/
def popAll (wants : List Ty) : Transfer Unit := wants.reverse.forM (popAs ctx pc)

/-- The type of a local that can be read. -/
def readLocal (n : UInt32) : Transfer Ty := do
  match item? (← get).frame.locals n with
  | none => fault ctx pc .outOfBounds ("local " ++ Text.ofNat n.toNat ++ " out of range")
  | some t =>
    if t = .top || t = .void then
      fault ctx pc .typeMismatch ("read of unusable local " ++ Text.ofNat n.toNat)
    else return t

/-- Gives a local a type. -/
def writeLocal (n : UInt32) (t : Ty) : Transfer Unit := do
  if n.toNat < (← get).frame.locals.length then
    modify fun s => { s with frame.locals := s.frame.locals.set n.toNat t }
  else fault ctx pc .outOfBounds ("local " ++ Text.ofNat n.toNat ++ " out of range")

/-- What the instruction at `pc` does to the frame. -/
def apply : Instr → Transfer Unit
  | .nop | .goto _ => return ()
  | .iconst _ => push .int
  | .sconst _ => push (.ref ClassName.string)
  | .null => push .null
  | .load n => do push (← readLocal ctx pc n)
  | .store n => do writeLocal ctx pc n (← pop ctx pc)
  | .pop => do let _ ← pop ctx pc
  | .dup => do
    let t ← pop ctx pc
    push t
    push t
  | .swap => do
    let b ← pop ctx pc
    let a ← pop ctx pc
    push b
    push a
  | .arith _ => do
    popInt ctx pc
    popInt ctx pc
    push .int
  | .branch .zero _ | .branch .nonzero _ | .switch _ _ _ => popInt ctx pc
  | .branch .less _ => do
    popInt ctx pc
    popInt ctx pc
  | .branch .null _ | .branch .nonnull _ => do let _ ← popRef ctx pc
  | .invoke n => do
    let s ← entry ctx.unit.symbols n
    popAll ctx pc s.params
    if s.result ≠ .void then push s.result
  | .checkcast n => do
    let cls ← entry ctx.unit.strings n
    let slot := (← height) - 1
    let t ← popRef ctx pc
    if t = .null then resolve pc slot (.ref cls)
    push (.ref cls)
  | .instanceof _ => do
    let _ ← popRef ctx pc
    push .int
  | .raise => popAs ctx pc (.ref ClassName.error)
  | .ret => if ctx.result = .void then return () else mismatch ctx pc ctx.result .void
  | .retval =>
    if ctx.result = .void then fault ctx pc .typeMismatch "retval in a void function"
    else popAs ctx pc ctx.result
  | .newrec n => do
    let l ← entry ctx.unit.records n
    popAll ctx pc l.fields
    push (.ref ClassName.state)
  | .recget n f => do
    popAs ctx pc (.ref ClassName.state)
    let l ← entry ctx.unit.records n
    push (← entry l.fields f)

/-- The outcome of the instruction at `pc` and the state it leaves. -/
def run (i : Instr) (s : TypingState) : Attempt Unit × TypingState :=
  ExceptT.run (apply ctx pc i) s

end Transfer

end Resumable
