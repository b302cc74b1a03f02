import Resumable.Assembly.Draft
import Resumable.Command.Invoke
import Resumable.Command.Settings
import Resumable.Quicksort

/-!
# The browser

Shows the functions of a unit, lets one be chosen, takes arguments for it and shows the result of
the call. This is what the browser knows and how keys change it; how it looks is not part of it.
-/

namespace Resumable

/-- A function in the list. -/
structure Listed where
  name : Text
  signature : Text
  params : List Ty
  /-- Did it become a state machine? -/
  transformed : Bool
deriving DecidableEq, Repr

/-- What is shown. -/
inductive Pane
  | select
  | code
  | arguments
  | result
deriving DecidableEq, Repr

/-- A key. -/
inductive Key
  | enter | tab | escape | up | down | interrupt | backspace
  | char (c : Char)
deriving DecidableEq, Repr

/-- A browser. -/
structure Browser where
  /-- Nothing if the unit cannot be loaded. -/
  program : Option Program := none
  functions : List Listed := []
  diagnostics : List Text := []
  /-- What was typed for each parameter. -/
  inputs : List (List Char) := []
  selected : Nat := 0
  /-- The parameter that is typed into. -/
  focus : Nat := 0
  pane : Pane := .select
  result : Text := ∅
  error : Option Error := none

namespace Browser

/-! ### Loading -/

/-- The functions of a unit that are listed, by name. Continuations are not. -/
def list (before after : CodeUnit) : List Listed :=
  Quicksort.sort (fun a b => a.name.lt b.name)
    ((before.functions.filter fun f => !f.isContinuation).map fun f =>
      { name := f.name, signature := f.signature, params := f.params
        transformed := (after.findFunction (f.name ++ continuationSuffix)).isSome })

/-- A browser for an encoded unit. -/
def ofBytes (settings : Settings) (loader : Resolver) (data : Bytes) : Attempt Browser := do
  let before ← (CodeUnit.decode data).mapError Failure.error
  let (out, journal) := (settings.transformed loader data).outcome
  let after ← (CodeUnit.decode (← out)).mapError Failure.error
  let program ← (Program.ofUnit after { loader }).mapError Failure.error
  return { program := some program, functions := list before after
           diagnostics := journal.diagnostics }

/-- A browser for a unit, or one that shows why there is none. -/
def ofUnit (settings : Settings) (loader : Resolver) (data : Attempt Bytes) : Attempt Browser :=
  match data.bind (ofBytes settings loader) with
  | .error (.error e) => .ok { error := some e }
  | other => other

/-! ### Keys -/

/-- Back to the list. -/
def back (b : Browser) : Browser := { b with pane := .select, result := ∅, error := none }

/-- Calls the selected function. -/
def call (b : Browser) : Attempt Browser :=
  match b.program, b.functions[b.selected]? with
  | some p, some f =>
    match p.callText f.name (b.inputs.map Text.ofChars) .deadline with
    | .ok text => .ok { b with pane := .result, result := text, error := none }
    | .error (.error e) => .ok { b with pane := .result, result := ∅, error := some e }
    | .error other => .error other
  | _, _ => .ok { b with pane := .result, result := ∅, error := some (.ofText "unit not loaded") }

/-- Changes what was typed for the parameter in focus. -/
def edit (b : Browser) (change : List Char → List Char) : Browser :=
  if b.pane = .arguments then { b with inputs := b.inputs.modify b.focus change } else b

/-- Can a character be typed? Control characters and the replacement character cannot. -/
def isTypable (c : Char) : Bool :=
  32 ≤ c.toNat && !(127 ≤ c.toNat && c.toNat < 160) && c.toNat ≠ 0xFFFD

/-- Types a character. -/
def type (b : Browser) (c : Char) : Browser :=
  b.edit fun typed =>
    if c = '\t' || c = '\n' || c = '\r' then typed ++ [' ']
    else if isTypable c then typed ++ [c]
    else typed

def moveUp (b : Browser) : Browser :=
  if b.pane = .select then { b with selected := b.selected - 1 } else b

def moveDown (b : Browser) : Browser :=
  if b.pane = .select && b.selected + 1 < b.functions.length then
    { b with selected := b.selected + 1 }
  else b

/-- Chooses the selected function: asks for its arguments, or calls it if it takes none. -/
def choose (b : Browser) : Attempt Browser :=
  match b.functions[b.selected]? with
  | none => .ok b
  | some f =>
    let b := { b with inputs := f.params.map fun _ => [], focus := 0 }
    if f.params.isEmpty then b.call else .ok { b with pane := .arguments }

def enter (b : Browser) : Attempt Browser :=
  match b.pane with
  | .select => b.choose
  | .arguments => b.call
  | .result | .code => .ok b.back

def escape (b : Browser) : Browser :=
  match b.pane with
  | .select => b
  | .arguments => { b with pane := .select, inputs := [] }
  | .result | .code => b.back

/-- The next parameter, and after the last one the first. -/
def nextInput (b : Browser) : Browser :=
  if b.pane = .arguments && 1 < b.inputs.length then
    { b with focus := (b.focus + 1) % b.inputs.length }
  else b

/-- Shows the code of the selected function. -/
def showCode (b : Browser) : Browser :=
  if b.pane = .select && !b.functions.isEmpty then { b with pane := .code } else b

/-- The browser after a key, and whether it was left. A letter is a command, and where arguments are
asked for it is typed as well. -/
def press (b : Browser) : Key → Attempt (Browser × Bool)
  | .interrupt => .ok (b, true)
  | .enter => return (← b.enter, false)
  | .escape => .ok (b.escape, false)
  | .tab => .ok (b.nextInput, false)
  | .up => .ok (b.moveUp, false)
  | .down => .ok (b.moveDown, false)
  | .backspace => .ok (b.edit List.dropLast, false)
  | .char c =>
    if c = 'q' && b.pane ≠ .arguments then .ok (b, true)
    else if b.pane = .arguments then .ok (b.type c, false)
    else
      match c with
      | 'k' => .ok (b.moveUp, false)
      | 'j' => .ok (b.moveDown, false)
      | 'd' => .ok (b.showCode, false)
      | _ => .ok (b, false)

end Browser

end Resumable
