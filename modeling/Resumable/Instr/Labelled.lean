import Resumable.Instr.Basic

/-!
# Instructions with labels

While code is put together, branches lead to labels; where a label stands is known only when all
code is there.
-/

namespace Resumable

/-- An instruction whose branch targets are labels. -/
inductive Labelled (Label : Type)
  /-- An instruction that is taken as it is. -/
  | plain (i : Instr)
  | goto (target : Label)
  | branch (test : Test) (target : Label)
  | switch (low : Int32) (targets : List Label) (otherwise : Label)
deriving DecidableEq, Repr

namespace Labelled

/-- The labels in an instruction, the default of a switch last. -/
def labels {Label : Type} : Labelled Label → List Label
  | plain _ => []
  | goto l | branch _ l => [l]
  | switch _ ls d => ls ++ [d]

/-- The instruction, once the place of each label is known. -/
def resolve {Label : Type} {m : Type → Type} [Monad m] (place : Label → m UInt32) :
    Labelled Label → m Instr
  | plain i => return i
  | goto l => return .goto (← place l)
  | branch test l => return .branch test (← place l)
  | switch low ls d => return .switch low (← ls.mapM place) (← place d)

end Labelled

end Resumable
