import Resumable.Assembly.Token
import Resumable.CodeUnit.Basic
import Resumable.Error
import Resumable.Text.Numeral

/-!
# Productions shared by all forms

Assembly is a sequence of parenthesised forms. A parser takes tokens from the front of what is left;
every production looks at one or two tokens to decide.
-/

namespace Resumable.Assembly

/-- Why a sequence of tokens is no unit. -/
inductive Fault
  | endOfInput
  | expected (line : Nat) (kind : TokenKind) (got : Text)
  | expectedWord (line : Nat) (word got : Text)
  | invalidNumber (line : Nat) (text : Text)
  | invalidIndex (line : Nat) (text : Text)
  | notAType (line : Nat) (text : Text)
  | unexpectedField (line : Nat) (form : Text)
  | trailingInput (line : Nat)
  | importId (line : Nat)
  | duplicateImport (line : Nat) (id : Text)
  | missingFields (line : Nat)
  | functionId (line : Nat)
  | duplicateFunction (line : Nat) (id : Text)
  | unknownFlag (line : Nat) (flag : Text)
  | unexpectedForm (line : Nat) (form : Text)
  | duplicateLabel (line : Nat) (name : Text)
  | unknownLabel (line : Nat) (name : Text)
  | cleanupClass (line : Nat)
  | missingFramePart (instr : UInt32) (part : Text)
  | unknownInstruction (line : Nat) (name : Text)
  | unknownCallTarget (line : Nat) (name : Text)
deriving DecidableEq, Repr

/-- The text of a fault. -/
def Fault.message : Fault → Text
  | .endOfInput => "unexpected end of input"
  | .expected n kind got => line n ++ "expected " ++ kind.name ++ ", got " ++ got.quoted
  | .expectedWord n word got => line n ++ "expected " ++ word.quoted ++ ", got " ++ got.quoted
  | .invalidNumber n t => line n ++ "invalid number " ++ t.quoted
  | .invalidIndex n t => line n ++ "invalid index " ++ t.quoted
  | .notAType n t => line n ++ t ++ " is not a type"
  | .unexpectedField n form => line n ++ "unexpected unit field " ++ form.quoted
  | .trailingInput n => line n ++ "trailing input after unit"
  | .importId n => line n ++ "import id must start with $"
  | .duplicateImport n id => line n ++ "duplicate import " ++ id
  | .missingFields n => line n ++ "record needs (fields ...)"
  | .functionId n => line n ++ "function id must start with $"
  | .duplicateFunction n id => line n ++ "duplicate function " ++ id
  | .unknownFlag n flag => line n ++ "unknown flag " ++ flag.quoted
  | .unexpectedForm n form => line n ++ "unexpected form " ++ form.quoted ++ " in function body"
  | .duplicateLabel n name => line n ++ "duplicate label " ++ name
  | .unknownLabel n name => line n ++ "unknown label " ++ name
  | .cleanupClass n => line n ++ "cleanup handlers catch every error"
  | .missingFramePart i part =>
    "frame " ++ Text.ofNat i.toNat ++ ": expected (" ++ part ++ " ...)"
  | .unknownInstruction n name => line n ++ "unknown instruction " ++ name.quoted
  | .unknownCallTarget n name => line n ++ "unknown call target " ++ name
where
  line (n : Nat) : Text := "line " ++ Text.ofNat n ++ ": "

/-- A parser: takes tokens from the front. -/
abbrev Parser := StateT (List Token) Attempt

/-- Gives up with a fault. -/
def reject {α : Type} (fault : Fault) : Attempt α := Attempt.fail (.ofText fault.message)

/-- Does an identifier name something defined in the text? -/
def isId (t : Text) : Bool := t.startsWith "$"

namespace Parser

/-- The next token, which is left where it is. -/
def peek : Parser Token := do
  match ← get with
  | [] => reject .endOfInput
  | t :: _ => return t

/-- Takes the next token. -/
def next : Parser Token := do
  match ← get with
  | [] => reject .endOfInput
  | t :: rest =>
    set rest
    return t

/-- Drops `n` tokens. -/
def skip (n : Nat) : Parser Unit := modify (List.drop n)

/-- Takes the next token, which must be of a sort. -/
def expect (kind : TokenKind) : Parser Token := do
  let t ← next
  if t.kind = kind then return t else reject (.expected t.line kind t.text)

/-- Takes a closing parenthesis. -/
def close : Parser Unit := do
  let _ ← expect .rparen

/-- Takes the given word. -/
def keyword (word : Text) : Parser Unit := do
  let t ← expect .ident
  if t.text = word then return () else reject (.expectedWord t.line word t.text)

/-- Takes the next token if it is an identifier. -/
def ident? : Parser (Option Token) := do
  match ← get with
  | t :: rest =>
    if t.kind = .ident then
      set rest
      return some t
    else return none
  | [] => return none

/-- The first word of the form at the front, or nothing if no such form is there. -/
def formOf : List Token → Text
  | a :: b :: _ => if a.kind = .lparen && b.kind = .ident then b.text else ∅
  | _ => ∅

/-- The first word of the form that comes next. -/
def form : Parser Text := return formOf (← get)

/-- A signed number of `bits` bits. -/
def int (bits : Nat) : Parser Int := do
  let t ← expect .number
  match Numeral.int bits t.text with
  | .ok n => return n
  | .error _ => reject (.invalidNumber t.line t.text)

/-- The index that a token stands for. -/
def indexOf (t : Token) : Attempt UInt32 :=
  if t.kind = .number then
    match Numeral.nat 32 t.text with
    | .ok n => return UInt32.ofNat n
    | .error _ => reject (.invalidIndex t.line t.text)
  else reject (.expected t.line .number t.text)

/-- An index. -/
def index : Parser UInt32 := do
  let t ← next
  indexOf t

/-- The type that a token stands for. -/
def typeOf (t : Token) : Attempt Ty :=
  if t.kind ≠ .ident then reject (.expected t.line .ident t.text)
  else if isId t.text then reject (.notAType t.line t.text)
  else return Ty.ofText t.text

/-- A type. -/
def type : Parser Ty := do
  let t ← next
  typeOf t

/-- Types up to the closing parenthesis of the form, which is taken as well. -/
def typesIn : List Token → Attempt (List Ty × List Token)
  | [] => reject .endOfInput
  | t :: rest =>
    if t.kind = .rparen then return ([], rest)
    else do
      let ty ← typeOf t
      let (tys, rest) ← typesIn rest
      return (ty :: tys, rest)

/-- Types up to the closing parenthesis of the form, which is taken as well. -/
def types : Parser (List Ty) := fun tokens => typesIn tokens

/-- Parameter types, if a form for them comes next. -/
def params : Parser (List Ty) := do
  if (← form) = "param" then
    skip 2
    types
  else return []

/-- A result type, if a form for it comes next. -/
def result : Parser Ty := do
  if (← form) = "result" then
    skip 2
    let ty ← type
    close
    return ty
  else return .void

/-- What follows the closing parenthesis that balances `depth` open ones. -/
def balanced : (depth : Nat) → List Token → Attempt (List Token)
  | _, [] => reject .endOfInput
  | depth, t :: rest =>
    match t.kind with
    | .lparen => balanced (depth + 1) rest
    | .rparen => if depth ≤ 1 then return rest else balanced (depth - 1) rest
    | _ => balanced depth rest

end Parser

end Resumable.Assembly
