import Resumable.Hierarchy

/-!
# Frames

A frame gives a type to every local and to every slot of the operand stack. Where two ways through
the code meet, their frames are joined: references meet in a common ancestor, and a local whose
types have nothing in common becomes unusable. A stack slot has to be usable, so there it is a
conflict.
-/

namespace Resumable

/-- The types before an instruction, the top of the stack first. -/
structure Frame where
  locals : List Ty
  stack : List Ty
deriving DecidableEq, Repr

/-- The entry of the frame table for an instruction. -/
def Frame.toEntry (f : Frame) (instr : Nat) : FrameEntry :=
  { instr := UInt32.ofNat instr, locals := f.locals, stack := f.stack.reverse }

/-- Why two frames cannot be joined. -/
inductive JoinFault
  | height
  /-- The types in this slot, counted from the bottom, have nothing in common. -/
  | slot (index : Nat)
deriving DecidableEq, Repr

namespace Hierarchy

/-- The type of a value that has one of two types, if there is a usable one. -/
def join (h : Hierarchy) (a b : Ty) : Option Ty :=
  if a = b then some a
  else
    match a, b with
    | .null, .ref c => some (.ref c)
    | .ref c, .null => some (.ref c)
    | .ref c, .ref d => some (.ref (h.commonAncestor c d))
    | _, _ => none

/-- The types of stack slots from number `index` on, counted from the bottom. -/
def joinStack (h : Hierarchy) : (index : Nat) → List Ty → List Ty → Except JoinFault (List Ty)
  | _, [], _ => .ok []
  | _, _, [] => .ok []
  | index, a :: as, b :: bs =>
    match h.join a b with
    | none => .error (.slot index)
    | some t => return t :: (← h.joinStack (index + 1) as bs)

/-- The types of locals. -/
def joinLocals (h : Hierarchy) (as bs : List Ty) : List Ty :=
  as.zipWith (fun a b => (h.join a b).getD .top) bs

/-- The frame of a place that is reached with one of two frames. -/
def joinFrames (h : Hierarchy) (a b : Frame) : Except JoinFault Frame :=
  if a.stack.length ≠ b.stack.length then .error .height
  else do
    let stack ← h.joinStack 0 a.stack.reverse b.stack.reverse
    return { locals := h.joinLocals a.locals b.locals, stack := stack.reverse }

end Hierarchy

end Resumable
