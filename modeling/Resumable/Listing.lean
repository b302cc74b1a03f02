import Resumable.CodeUnit.Body
import Resumable.Error
import Resumable.Quicksort

/-!
# Listings

The text of a unit that assembles to the same unit again. Branch targets and the ends of handler
ranges become labels named after their instruction, call symbols become imports named after their
index.
-/

namespace Resumable

namespace Listing

/-- A line at a depth of nesting. -/
def line (depth : Nat) (t : Text) : Text :=
  Text.concat (List.replicate depth "  ") ++ t ++ "\n"

def index (n : UInt32) : Text := Text.ofNat n.toNat

/-- The name of the label before an instruction. -/
def label (n : UInt32) : Text := "$L" ++ index n

/-- Types with a blank before each. -/
def types (ts : List Ty) : Text := Text.concat (ts.map fun t => " " ++ t.text)

/-- Parameters and result, each left out if there is nothing to say. -/
def signature (params : List Ty) (result : Ty) : Text :=
  (if params.isEmpty then ∅ else " (param" ++ types params ++ ")") ++
  (if result = .void then ∅ else " (result " ++ result.text ++ ")")

/-- The names of the flags that are set. -/
def flags (f : Func) : Text :=
  if f.flags = 0 then ∅
  else
    let transformed : List Text := if f.isTransformed then ["transformed"] else []
    let continuation : List Text := if f.isContinuation then ["continuation"] else []
    " (flags " ++ Text.join " " (transformed ++ continuation) ++ ")"

def classDecl (c : ClassDecl) : Text :=
  if c.super.isEmpty then "(class " ++ c.name ++ ")"
  else "(class " ++ c.name ++ " " ++ c.super ++ ")"

def symbol (i : Nat) (s : Symbol) : Text :=
  let owner : Text := if s.owner.isEmpty then "." else s.owner
  "(import $sym" ++ Text.ofNat i ++ " " ++ owner ++ " " ++ s.name ++ signature s.params s.result ++
    ")"

def layout (l : Layout) : Text :=
  "(record " ++ l.function ++ " " ++ index l.point ++ " (fields" ++ types l.fields ++ "))"

def handler (h : Handler) : Text :=
  "(" ++ (if h.kind = Handler.cleanupKind then "cleanup" else "catch") ++ " " ++ label h.start ++
    " " ++ label h.stop ++ " " ++ label h.target ++
    (if h.kind = Handler.catchKind && !h.cls.isEmpty then " " ++ h.cls else ∅) ++
    " (region " ++ index h.region ++ "))"

def frame (f : FrameEntry) : Text :=
  "(frame " ++ index f.instr ++ " (locals" ++ types f.locals ++ ") (stack" ++ types f.stack ++ "))"

/-- An instruction with its operands spelled out. A body that passed its checks names only entries
that the unit has. -/
def instr (u : CodeUnit) (i : Instr) : Text :=
  match i with
  | .iconst v => i.opcode.name ++ " " ++ Text.ofInt v.toInt
  | .sconst n => i.opcode.name ++ " " ++ ((item? u.strings n).getD ∅).quoted
  | .load n | .store n | .newrec n => i.opcode.name ++ " " ++ index n
  | .goto t | .branch _ t => i.opcode.name ++ " " ++ label t
  | .switch low ts d =>
    i.opcode.name ++ " " ++ Text.ofInt low.toInt ++ " (" ++ Text.join " " (ts.map label) ++ ") " ++
      label d
  | .invoke n =>
    i.opcode.name ++ " $sym" ++ index n ++ " ;; " ++ (item? u.symbols n).elim ∅ Symbol.text
  | .checkcast n | .instanceof n => i.opcode.name ++ " " ++ (item? u.strings n).getD ∅
  | .recget n f => i.opcode.name ++ " " ++ index n ++ " " ++ index f
  | _ => i.opcode.name

/-- The instructions that a label stands before. -/
def labelled (f : Func) (is : List Instr) : List UInt32 :=
  is.flatMap Instr.targets ++ f.handlers.flatMap fun h => [h.start, h.stop, h.target]

/-- The lines of a body, with the labels between them. -/
def code (u : CodeUnit) (labels : List UInt32) : (pc : Nat) → List Instr → Text
  | pc, [] => mark labels pc
  | pc, i :: rest => mark labels pc ++ line 2 (instr u i) ++ code u labels (pc + 1) rest
where
  mark (labels : List UInt32) (pc : Nat) : Text :=
    if UInt32.ofNat pc ∈ labels then line 2 ("(label $L" ++ Text.ofNat pc ++ ")") else ∅

/-- The frames by their instructions. -/
def frameTable (f : Func) : List FrameEntry :=
  Quicksort.sort (fun a b => decide (a.instr < b.instr)) f.frames

/-- A function whose instructions are known. -/
def function (u : CodeUnit) (f : Func) (is : List Instr) : Text :=
  line 1 ("(func $" ++ f.name ++ signature f.params f.result ++ " (locals " ++ index f.maxLocals ++
    ") (stack " ++ index f.maxStack ++ ")" ++ flags f) ++
  Text.concat (f.handlers.map fun h => line 2 (handler h)) ++
  Text.concat ((frameTable f).map fun x => line 2 (frame x)) ++
  code u (labelled f is) 0 is ++
  line 1 ")"

/-- What comes before the functions. -/
def head (u : CodeUnit) : Text :=
  line 0 "(unit" ++
  Text.concat (u.classes.map fun c => line 1 (classDecl c)) ++
  Text.concat (u.symbols.zipIdx.map fun (s, i) => line 1 (symbol i s)) ++
  Text.concat (u.records.map fun l => line 1 (layout l))

end Listing

/-- A listing that may have stopped at an error. -/
structure Listing where
  text : Text
  error : Option Error := none
deriving DecidableEq, Repr

namespace CodeUnit

/-- The listing of one function. -/
def listFunction (u : CodeUnit) (f : Func) : Except Error Text :=
  match u.bodyOf f with
  | .ok is => .ok (Listing.function u f is)
  | .error fault => .error (.ofText ("function " ++ f.name.quoted ++ ": " ++ fault.message))

/-- The listings of functions, up to the first whose body is not usable. -/
def listFunctions (u : CodeUnit) : List Func → Listing
  | [] => { text := Listing.line 0 ")" }
  | f :: rest =>
    match u.listFunction f with
    | .ok t =>
      let others := u.listFunctions rest
      { others with text := t ++ others.text }
    | .error e => { text := ∅, error := some e }

/-- The listing of the unit. -/
def listing (u : CodeUnit) : Listing :=
  let functions := u.listFunctions u.functions
  { functions with text := Listing.head u ++ functions.text }

end CodeUnit

end Resumable
