import Resumable.CodeUnit.Basic
import Resumable.Instr.Labelled

/-!
# Code with labels

A fragment is code that is being put together: instructions and marks of labels in their order, and
handlers whose ranges are given by labels. A label stands for the instruction that follows its mark.
When all marks are known, the fragment can be turned into instructions and a handler table.
-/

namespace Resumable

/-- A member of a fragment. -/
inductive Item (Label : Type)
  | mark (label : Label)
  | code (i : Labelled Label)
deriving DecidableEq, Repr

/-- A handler whose range and target are labels. -/
structure LabelledHandler (Label : Type) where
  start : Label
  stop : Label
  target : Label
  cls : Text
  region : UInt32
  kind : UInt8
deriving DecidableEq, Repr

/-- Instructions, marks and handlers. -/
structure Fragment (Label : Type) where
  items : List (Item Label) := []
  handlers : List (LabelledHandler Label) := []
deriving DecidableEq, Repr

/-- A label without a mark. -/
inductive FragmentFault (Label : Type)
  | code (pc : Nat) (label : Label)
  | handler (index : Nat) (edge : Text) (label : Label)
deriving DecidableEq, Repr

/-- The label that has no mark. -/
def FragmentFault.label {Label : Type} : FragmentFault Label → Label
  | .code _ l | .handler _ _ l => l

/-- The text of a fault, with labels written as numbers. -/
def FragmentFault.message {Label : Type} (number : Label → Int) : FragmentFault Label → Text
  | .code pc l => "instruction " ++ Text.ofNat pc ++ ": " ++ unbound l
  | .handler k edge l => "handler " ++ Text.ofNat k ++ " " ++ edge ++ ": " ++ unbound l
where
  unbound (l : Label) : Text := "label " ++ Text.ofInt (number l) ++ " is not bound"

namespace Fragment

variable {Label : Type}

/-- The instructions, without the marks. -/
def codes : List (Item Label) → List (Labelled Label)
  | [] => []
  | .mark _ :: rest => codes rest
  | .code i :: rest => i :: codes rest

/-- The number of instructions. -/
def size (f : Fragment Label) : Nat := (codes f.items).length

/-- The place of every mark, where the first item has place `pc`. -/
def marksFrom (pc : Nat) : List (Item Label) → List (Label × Nat)
  | [] => []
  | .mark l :: rest => (l, pc) :: marksFrom pc rest
  | .code _ :: rest => marksFrom (pc + 1) rest

/-- The fragment with more items at its end. -/
def append (f : Fragment Label) (items : List (Item Label)) : Fragment Label :=
  { f with items := f.items ++ items }

variable [BEq Label]

/-- The place of a label. If it is marked more than once, the last mark counts. -/
def place? (f : Fragment Label) (l : Label) : Option Nat :=
  (marksFrom 0 f.items).reverse.lookup l

/-- The place of a label, as an operand. -/
def place {ε : Type} (f : Fragment Label) (fault : Label → ε) (l : Label) : Except ε UInt32 :=
  match f.place? l with
  | some pc => .ok (UInt32.ofNat pc)
  | none => .error (fault l)

/-- The handler with its labels replaced. -/
def placeHandler (f : Fragment Label) (h : LabelledHandler Label) (index : Nat) :
    Except (FragmentFault Label) Handler := do
  let start ← f.place (.handler index "start") h.start
  let stop ← f.place (.handler index "end") h.stop
  let target ← f.place (.handler index "target") h.target
  return { start, stop, target, cls := h.cls, region := h.region, kind := h.kind }

/-- The instructions and the handler table. Handlers that cover no instruction are left out. -/
def finish (f : Fragment Label) :
    Except (FragmentFault Label) (List Instr × List Handler) := do
  let is ← (codes f.items).zipIdx.mapM fun (i, pc) => i.resolve (f.place (.code pc))
  let hs ← f.handlers.zipIdx.mapM fun (h, k) => f.placeHandler h k
  return (is, hs.filter fun h => h.start < h.stop)

end Fragment

end Resumable
