import Resumable.Exec.Thread
import Resumable.Text.Numeral

/-!
# Calling a function from outside

Arguments are given as text, and the result is shown as text. An argument for a future becomes a
future that is settled already, so that a function can be tried without anyone who completes
futures.
-/

namespace Resumable

/-- How a function is shown in a list: name, parameters and result. -/
def Func.signature (f : Func) : Text :=
  f.name ++ "(" ++ Text.join ", " (f.params.map Ty.text) ++ ")" ++
    if f.result = .void then ∅ else " -> " ++ f.result.text

/-- Does the text of an argument ask for a failed future? Then what follows is the message. -/
def failedMessage? (t : Text) : Option Text :=
  let mark : Text := "failed:"
  if t.startsWith mark then some ⟨t.bytes.drop mark.size⟩ else none

/-- A 64-bit integer in decimal. -/
def readInt (t : Text) : Except NumeralFault Int64 := (Numeral.decimalInt 64 t).map Int64.ofInt

/-- The error of an argument that is no integer. -/
def argumentError (t : Text) (fault : NumeralFault) : Error :=
  .ofText ("argument " ++ t.quoted ++ ": strconv.ParseInt: parsing " ++ t.quoted ++ ": " ++
    fault.message)

/-- The future that the text of an argument stands for. -/
def futureFor (t : Text) : Future where
  cls := ClassName.future
  outcome :=
    match failedMessage? t, readInt t with
    | some message, _ => some (.failed (Exception.ofText message).toError)
    | none, .ok n => some (.value (.int n))
    | none, .error _ => some (.value (.str t))

/-- The value that a text stands for as an argument of a type. -/
def readArgument (classes : Hierarchy) (type : Ty) (t : Text) (s : Store) :
    Except Error (Value × Store) :=
  if type = .int then
    match readInt t with
    | .ok n => .ok (.int n, s)
    | .error fault => .error (argumentError t fault)
  else if t = "null" then .ok (.null, s)
  else
    match type with
    | .ref cls =>
      if classes.isSubclass cls ClassName.future then
        let (f, s) := s.newFuture (futureFor t)
        .ok (.future f, s)
      else .ok (.str t, s)
    | _ => .ok (.str t, s)

/-- The values that some texts stand for. -/
def readArguments (classes : Hierarchy) : List (Ty × Text) → Store →
    Except Error (List Value × Store)
  | [], s => .ok ([], s)
  | (type, t) :: rest, s => do
    let (v, s) ← readArgument classes type t s
    let (vs, s) ← readArguments classes rest s
    return (v :: vs, s)

namespace Program

/-- The result of a call as text. A future is waited for. -/
def shown (s : Store) (patience : Patience) : Value → Attempt Text
  | .future f => do s.format (← Program.join f patience s)
  | v => s.format v

/-- Calls a function with arguments that are given as texts. The parameters are those of the first
function with the name. -/
def callText (p : Program) (name : Text) (args : List Text) (patience : Patience) :
    Attempt Text := do
  match (p.unit.findFunction name).bind (p.unit.functions[·]?) with
  | none => Attempt.fail (.ofText ("function " ++ name.quoted ++ " not found"))
  | some f =>
    if args.length ≠ f.params.length then
      Attempt.fail (.ofText (name ++ " takes " ++ Text.ofNat f.params.length ++
        " argument(s), got " ++ Text.ofNat args.length))
    match readArguments p.classes (f.params.zip args) {} with
    | .error e => Attempt.fail e
    | .ok (values, s) =>
      match p.call name values patience s with
      | (.error f, _) => throw f
      | (.ok (.error e), _) => Attempt.fail e
      | (.ok (.ok v), s) => shown s patience v

end Program

end Resumable
