import Resumable.Assembly.Parser
import Resumable.CodeUnit.StackBound
import Resumable.Instr.Codec
import Resumable.Instr.Labelled

/-!
# Function bodies in assembly

A body is read when the signatures of all functions are known, because a call may name any of them.
Branches lead to labels, which may come later; a handler may also name instructions by their index.
-/

namespace Resumable.Assembly

/-- What the identifiers of the text stand for. -/
structure Scope where
  /-- Identifiers of imports, with the symbols they stand for. -/
  imports : List (Text × UInt32) := []
  /-- Identifiers of functions, with their indices. -/
  functions : List (Text × Nat) := []

/-- A label where it is used. -/
structure LabelRef where
  name : Text
  line : Nat
deriving DecidableEq, Repr

/-- A place in a body: a label, or the index of an instruction. -/
inductive Place
  | label (ref : LabelRef)
  | index (n : UInt32)
deriving DecidableEq, Repr

/-- A handler whose places are not resolved yet. -/
structure HandlerForm where
  start : Place
  stop : Place
  target : Place
  cls : Text
  region : UInt32
  kind : UInt8
deriving DecidableEq, Repr

/-- The part of a body that was read. -/
structure BodyDraft where
  steps : List (Labelled Text) := []
  labels : List (Text × UInt32) := []
  /-- All uses of labels in the order of the text. -/
  refs : List LabelRef := []
  handlers : List HandlerForm := []
  frames : List FrameEntry := []

/-- A parser of a body, which extends the unit and the draft of the body. -/
abbrev BodyParser := StateT (CodeUnit × BodyDraft) Parser

namespace BodyParser

/-- The unit as extended so far. -/
def unit : BodyParser CodeUnit := return (← get).1

/-- The draft so far. -/
def draft : BodyParser BodyDraft := return (← get).2

def modifyDraft (f : BodyDraft → BodyDraft) : BodyParser Unit := modify fun (u, d) => (u, f d)

/-- The place of a string in the pool. -/
def string (s : Text) : BodyParser UInt32 := do
  let (i, u) := (← unit).addString s
  modify fun (_, d) => (u, d)
  return i

/-- The place of a symbol in its table. -/
def symbol (s : Symbol) : BodyParser UInt32 := do
  let (i, u) := (← unit).addSymbol s
  modify fun (_, d) => (u, d)
  return i

/-- Notes the use of a label. -/
def use (ref : LabelRef) : BodyParser Text := do
  modifyDraft fun d => { d with refs := d.refs ++ [ref] }
  return ref.name

/-- Adds an instruction. -/
def emit (step : Labelled Text) : BodyParser Unit :=
  modifyDraft fun d => { d with steps := d.steps ++ [step] }

/-! ### Places -/

/-- The place that a token stands for. -/
def placeOf (t : Token) : Attempt Place :=
  if t.kind = .ident && isId t.text then return .label ⟨t.text, t.line⟩
  else return .index (← Parser.indexOf t)

/-- The label that a branch leads to. An instruction that is not finished has no index yet, so a
branch cannot name its target by number. -/
def branchTargetOf (t : Token) : Attempt LabelRef := do
  match ← placeOf t with
  | .label ref => return ref
  | .index _ => throw .outOfRange

/-- The labels up to a closing parenthesis, which is taken as well. -/
def branchTargetsIn : List Token → Attempt (List LabelRef × List Token)
  | [] => reject .endOfInput
  | t :: rest =>
    if t.kind = .rparen then return ([], rest)
    else do
      let ref ← branchTargetOf t
      let (refs, rest) ← branchTargetsIn rest
      return (ref :: refs, rest)

/-- A place, whose label is noted if it is one. -/
def place : BodyParser Place := do
  let p ← placeOf (← Parser.next)
  match p with
  | .label ref => let _ ← use ref
  | .index _ => pure ()
  return p

/-- The label that a branch leads to. -/
def branchTarget : BodyParser Text := do
  use (← branchTargetOf (← Parser.next))

/-! ### Forms -/

/-- The form `(label $name)`. -/
def label : BodyParser Unit := do
  Parser.skip 2
  let id ← Parser.expect .ident
  if (← draft).labels.any (·.1 = id.text) then reject (.duplicateLabel id.line id.text)
  modifyDraft fun d => { d with labels := d.labels ++ [(id.text, UInt32.ofNat d.steps.length)] }
  Parser.close

/-- The class of a handler, if one is named; `any` names none. -/
def handlerClass (cleanup : Bool) : Parser Text := do
  match ← Parser.ident? with
  | none => return ∅
  | some t =>
    if cleanup then reject (.cleanupClass t.line)
    else return if t.text = "any" then ∅ else t.text

/-- The region of a handler, if one is given. -/
def handlerRegion (otherwise : UInt32) : Parser UInt32 := do
  if (← Parser.form) = "region" then
    Parser.skip 2
    let region ← Parser.index
    Parser.close
    return region
  else return otherwise

/-- The form `(catch start stop target class (region n))`, or `(cleanup …)` without a class. -/
def handler (cleanup : Bool) : BodyParser Unit := do
  Parser.skip 2
  let start ← place
  let stop ← place
  let target ← place
  let cls ← handlerClass cleanup
  let region ← handlerRegion (UInt32.ofNat ((← draft).handlers.length + 1))
  let kind := if cleanup then Handler.cleanupKind else Handler.catchKind
  let h : HandlerForm := { start, stop, target, cls, region, kind }
  modifyDraft fun d => { d with handlers := d.handlers ++ [h] }
  Parser.close

/-- One part of a frame: a word and types. -/
def framePart (instr : UInt32) (part : Text) : Parser (List Ty) := do
  if (← Parser.form) = part then
    Parser.skip 2
    Parser.types
  else reject (.missingFramePart instr part)

/-- The form `(frame n (locals …) (stack …))`. -/
def frame : BodyParser Unit := do
  Parser.skip 2
  let instr ← Parser.index
  let locals ← framePart instr "locals"
  let stack ← framePart instr "stack"
  modifyDraft fun d => { d with frames := d.frames ++ [{ instr, locals, stack }] }
  Parser.close

/-! ### Instructions -/

/-- The symbol that a call names: an import, a function of the unit, or an index. -/
def callTarget (scope : Scope) : BodyParser UInt32 := do
  let t ← Parser.next
  if t.kind ≠ .ident then Parser.indexOf t
  else
    match scope.imports.lookup t.text with
    | some i => return i
    | none =>
      match scope.functions.lookup t.text with
      | some f =>
        let f ← Attempt.ofOption (← unit).functions[f]?
        symbol { owner := ∅, name := f.name, params := f.params, result := f.result }
      | none => reject (.unknownCallTarget t.line t.text)

/-- The operands that belong to an opcode. -/
def operands (scope : Scope) : Opcode → BodyParser (Labelled Text)
  | .nop => return .plain .nop
  | .iconst => return .plain (.iconst (Int64.ofInt (← Parser.int 64)))
  | .sconst => do
    let t ← Parser.expect .string
    return .plain (.sconst (← string t.text))
  | .null => return .plain .null
  | .load => return .plain (.load (← Parser.index))
  | .store => return .plain (.store (← Parser.index))
  | .pop => return .plain .pop
  | .dup => return .plain .dup
  | .swap => return .plain .swap
  | .add => return .plain (.arith .add)
  | .sub => return .plain (.arith .sub)
  | .mul => return .plain (.arith .mul)
  | .cmp => return .plain (.arith .cmp)
  | .goto => return .goto (← branchTarget)
  | .ifzero => return .branch .zero (← branchTarget)
  | .ifnonzero => return .branch .nonzero (← branchTarget)
  | .iflt => return .branch .less (← branchTarget)
  | .ifnull => return .branch .null (← branchTarget)
  | .ifnonnull => return .branch .nonnull (← branchTarget)
  | .switch => do
    let low ← Parser.int 32
    let _ ← Parser.expect .lparen
    let (refs, rest) ← branchTargetsIn (← getThe (List Token))
    set rest
    let targets ← refs.mapM use
    return .switch (Int32.ofInt low) targets (← branchTarget)
  | .invoke => return .plain (.invoke (← callTarget scope))
  | .checkcast => do
    let t ← Parser.expect .ident
    return .plain (.checkcast (← string t.text))
  | .instanceof => do
    let t ← Parser.expect .ident
    return .plain (.instanceof (← string t.text))
  | .throw => return .plain .raise
  | .return => return .plain .ret
  | .retval => return .plain .retval
  | .newrec => return .plain (.newrec (← Parser.index))
  | .recget => do
    let layout ← Parser.index
    return .plain (.recget layout (← Parser.index))

/-- An instruction. -/
def instr (scope : Scope) : BodyParser Unit := do
  let t ← Parser.expect .ident
  match Opcode.ofName? t.text with
  | none => reject (.unknownInstruction t.line t.text)
  | some op => emit (← operands scope op)

/-- One item of a body. -/
def item (scope : Scope) : BodyParser Unit := do
  let line := (← Parser.peek).line
  let form ← Parser.form
  if form = "label" then label
  else if form = "catch" then handler false
  else if form = "cleanup" then handler true
  else if form = "frame" then frame
  else if form.isEmpty then instr scope
  else reject (.unexpectedForm line form)

/-- The items up to the parenthesis that closes the function, at most `most` of them. -/
def items (scope : Scope) : (most : Nat) → BodyParser Unit
  | 0 => reject .endOfInput
  | most + 1 => do
    if (← Parser.peek).kind = .rparen then Parser.close
    else
      item scope
      items scope most

end BodyParser

/-! ### Resolution -/

namespace BodyDraft

/-- Where a label stands. -/
def labelPlace (d : BodyDraft) (ref : LabelRef) : Attempt UInt32 :=
  match d.labels.lookup ref.name with
  | some n => return n
  | none => reject (.unknownLabel ref.line ref.name)

/-- Where a place is. -/
def placeIndex (d : BodyDraft) : Place → Attempt UInt32
  | .label ref => d.labelPlace ref
  | .index n => return n

/-- A handler with its places resolved. -/
def resolveHandler (d : BodyDraft) (h : HandlerForm) : Attempt Handler := do
  let start ← d.placeIndex h.start
  let stop ← d.placeIndex h.stop
  let target ← d.placeIndex h.target
  return { start, stop, target, cls := h.cls, region := h.region, kind := h.kind }

/-- Instructions and handlers with all labels resolved. The first use of an unknown label in the
order of the text is the one reported. -/
def resolve (d : BodyDraft) : Attempt (List Instr × List Handler) := do
  d.refs.forM fun ref => do let _ ← d.labelPlace ref
  let is ← d.steps.mapM fun s => s.resolve fun l => d.labelPlace ⟨l, 0⟩
  let handlers ← d.handlers.mapM d.resolveHandler
  return (is, handlers)

end BodyDraft

/-- The number of locals that the parameters and the instructions need. -/
def neededLocals (params : Nat) (is : List Instr) : Nat :=
  is.foldl (fun n i => match i.slot? with
    | some s => max n (s.toNat + 1)
    | none => n) params

/-- Adds to an error what would make it go away. -/
def suggestStack (e : Error) : Error :=
  .ofText (e.message ++ " (declare (stack N) to assemble it anyway)")

/-- The function with the body that the draft describes. -/
def BodyDraft.finish (d : BodyDraft) (u : CodeUnit) (f : Func) (locals stack : Option UInt32) :
    Attempt Func := do
  let (is, handlers) ← d.resolve
  let needed := neededLocals f.params.length is
  let maxStack ← match stack with
    | some n => pure n
    | none => Attempt.mapError suggestStack (u.stackBound is handlers)
  return { f with
    code := Instr.encodeAll is
    handlers
    frames := d.frames
    maxLocals := UInt32.ofNat (max needed (locals.elim 0 UInt32.toNat))
    maxStack }

end Resumable.Assembly
