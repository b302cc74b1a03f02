import Resumable.Assembly.Body

/-!
# Units in assembly

A unit is read twice. The first reading takes classes, imports, records and the heads of functions,
and steps over the bodies; the second reads the bodies.
-/

namespace Resumable.Assembly

/-- A function whose body is still to be read. -/
structure Pending where
  index : Nat
  /-- The tokens from the start of the body on. -/
  body : List Token
  locals : Option UInt32
  stack : Option UInt32

/-- The part of a unit that was read. -/
structure Draft where
  unit : CodeUnit := {}
  scope : Scope := {}
  pending : List Pending := []

/-- A parser of a part of a unit. -/
abbrev DraftParser := StateT Draft Parser

namespace DraftParser

/-- The form `(class Name Super)`; the root class need not be named. -/
def classDecl : DraftParser Unit := do
  Parser.skip 2
  let name := (← Parser.expect .ident).text
  let super ← Parser.ident?
  let super := match super with
    | some t => if t.text = ClassName.object then ∅ else t.text
    | none => ∅
  modify fun d => { d with unit.classes := d.unit.classes ++ [{ name, super }] }
  Parser.close

/-- The form `(import $id Owner name (param …) (result T))`; the owner `.` is the unit itself. -/
def importDecl : DraftParser Unit := do
  Parser.skip 2
  let id ← Parser.expect .ident
  if !isId id.text then reject (.importId id.line)
  if ((← get).scope.imports.lookup id.text).isSome then reject (.duplicateImport id.line id.text)
  let owner := (← Parser.expect .ident).text
  let name := (← Parser.expect .ident).text
  let params ← Parser.params
  let result ← Parser.result
  let owner := if owner = "." then ∅ else owner
  let (i, unit) := (← get).unit.addSymbol { owner, name, params, result }
  modify fun d => { d with unit, scope.imports := d.scope.imports ++ [(id.text, i)] }
  Parser.close

/-- The form `(record function point (fields …))`. -/
def record : DraftParser Unit := do
  Parser.skip 2
  let function ← Parser.expect .ident
  let point ← Parser.index
  if (← Parser.form) ≠ "fields" then reject (.missingFields function.line)
  Parser.skip 2
  let fields ← Parser.types
  let (_, unit) := (← get).unit.addRecord { function := function.text, point, fields }
  modify fun d => { d with unit }
  Parser.close

/-- The flags named up to the next token that is no identifier. -/
def flagsIn : List Token → Attempt (UInt8 × List Token)
  | [] => return (0, [])
  | t :: rest =>
    if t.kind ≠ .ident then return (0, t :: rest)
    else if t.text = "transformed" then do
      let (flags, rest) ← flagsIn rest
      return (flags ||| Func.transformedFlag, rest)
    else if t.text = "continuation" then do
      let (flags, rest) ← flagsIn rest
      return (flags ||| Func.continuationFlag, rest)
    else reject (.unknownFlag t.line t.text)

/-- What the head of a function may declare, in any order. -/
structure Declared where
  locals : Option UInt32 := none
  stack : Option UInt32 := none
  flags : UInt8 := 0

/-- The declarations before a body, at most `most` of them. -/
def declarations : (most : Nat) → Declared → Parser Declared
  | 0, d => return d
  | most + 1, d => do
    let form ← Parser.form
    if form = "locals" then
      Parser.skip 2
      let n ← Parser.index
      Parser.close
      declarations most { d with locals := some n }
    else if form = "stack" then
      Parser.skip 2
      let n ← Parser.index
      Parser.close
      declarations most { d with stack := some n }
    else if form = "flags" then
      Parser.skip 2
      let (flags, rest) ← flagsIn (← get)
      set rest
      Parser.close
      declarations most { d with flags := d.flags ||| flags }
    else return d

/-- The form `(func $name (param …) (result T) (locals n) (stack n) (flags …) body …)`, of which the
body is only stepped over. -/
def function : DraftParser Unit := do
  let whole ← getThe (List Token)
  Parser.skip 2
  let id ← Parser.expect .ident
  if !isId id.text then reject (.functionId id.line)
  if ((← get).scope.functions.lookup id.text).isSome then
    reject (.duplicateFunction id.line id.text)
  let params ← Parser.params
  let result ← Parser.result
  let declared ← declarations whole.length {}
  let body ← getThe (List Token)
  let f : Func := { name := ⟨id.text.bytes.drop 1⟩, params, result, flags := declared.flags }
  let index := (← get).unit.functions.length
  modify fun d => { d with
    unit.functions := d.unit.functions ++ [f]
    scope.functions := d.scope.functions ++ [(id.text, index)]
    pending := d.pending ++ [{ index, body, locals := declared.locals, stack := declared.stack }] }
  set (← Parser.balanced 0 whole)

/-- One field of a unit. -/
def field : DraftParser Unit := do
  let line := (← Parser.peek).line
  let form ← Parser.form
  if form = "class" then classDecl
  else if form = "import" then importDecl
  else if form = "record" then record
  else if form = "func" then function
  else reject (.unexpectedField line form)

/-- The fields up to the parenthesis that closes the unit, at most `most` of them. -/
def fields : (most : Nat) → DraftParser Unit
  | 0 => reject .endOfInput
  | most + 1 => do
    if (← Parser.peek).kind = .rparen then Parser.close
    else
      field
      fields most

/-- The first reading of a unit. -/
def unit : DraftParser Unit := do
  let size := (← getThe (List Token)).length
  let _ ← Parser.expect .lparen
  Parser.keyword "unit"
  fields size
  match ← getThe (List Token) with
  | [] => return ()
  | t :: _ => reject (.trailingInput t.line)

end DraftParser

/-- Reads the body of a pending function into the unit. -/
def Pending.complete (scope : Scope) (u : CodeUnit) (p : Pending) : Attempt CodeUnit := do
  let f ← Attempt.ofOption u.functions[p.index]?
  Attempt.mapError (fun e => .ofText ("func " ++ f.name ++ ": " ++ e.message)) do
    let ((_, u, draft), _) ← ((BodyParser.items scope (p.body.length + 1)).run (u, {})).run p.body
    let f ← draft.finish u f p.locals p.stack
    return { u with functions := u.functions.set p.index f }

/-- The unit that a sequence of tokens describes. -/
def unitOf (tokens : List Token) : Attempt CodeUnit := do
  let ((_, draft), _) ← (DraftParser.unit.run {}).run tokens
  draft.pending.foldlM (Pending.complete draft.scope) draft.unit

/-- The unit that a text describes. -/
def parse (source : Text) : Attempt CodeUnit :=
  Attempt.mapError (fun e => .parseFailed "assembly" (some e)) do
    let tokens ← Attempt.ofExcept TokenFault.message (tokenize source)
    unitOf tokens

end Resumable.Assembly
