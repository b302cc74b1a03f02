import Resumable.Text.Basic

/-!
# Code units

A code unit is what one file holds: a pool of strings and tables of classes, call symbols, record
layouts and functions. Instructions address the pool and the tables by 32-bit indices.
-/

namespace Resumable

/-! ### Names with a meaning -/

namespace ClassName

/-- The root of the class hierarchy. -/
def object : Text := "Object"
def string : Text := "String"
/-- The root of what can be thrown. -/
def error : Text := "Error"
def future : Text := "Future"
/-- The class of captured-state records. -/
def state : Text := "async/State"
/-- The class of suspended invocations. -/
def machine : Text := "async/Machine"

end ClassName

/-- What is appended to the name of a function to name its continuation. -/
def continuationSuffix : Text := "$async"

/-! ### Types -/

/-- The type of a value, as frames and signatures know it. -/
inductive Ty
  | void
  | int
  /-- A null reference whose class is not known yet. -/
  | null
  /-- Nothing usable: never written, or different on different paths. -/
  | top
  | ref (cls : Text)
deriving DecidableEq, Repr, Inhabited

namespace Ty

/-- How a type is written. A class may have any name, also that of another type. -/
def text : Ty → Text
  | void => "void"
  | int => "I"
  | null => "null"
  | top => "top"
  | ref cls => cls

/-- The type that a word denotes. -/
def ofText (t : Text) : Ty :=
  if t = "void" then void
  else if t = "I" then int
  else if t = "null" then null
  else if t = "top" then top
  else ref t

/-- Can a value of this type be a reference? -/
def isReference : Ty → Bool
  | ref _ | null => true
  | _ => false

end Ty

/-! ### Tables -/

/-- A class of the unit. An empty `super` stands for the root class. -/
structure ClassDecl where
  name : Text
  super : Text
deriving DecidableEq, Repr

/-- Something that can be called. The owner is empty for functions of the same unit. -/
structure Symbol where
  owner : Text
  name : Text
  params : List Ty
  result : Ty
deriving DecidableEq, Repr

namespace Symbol

/-- The name under which a symbol is looked up: `Owner.name`, or the name alone. -/
def key (s : Symbol) : Text :=
  if s.owner.isEmpty then s.name else s.owner ++ "." ++ s.name

/-- The full descriptor, such as `Future.join(Future)Object`. -/
def text (s : Symbol) : Text :=
  s.key ++ "(" ++ Text.join "," (s.params.map Ty.text) ++ ")" ++ s.result.text

end Symbol

/-- What a suspension point of a function captures. -/
structure Layout where
  function : Text
  point : UInt32
  fields : List Ty
deriving DecidableEq, Repr

/-- A protected range of instructions, from `start` up to but not including `stop`. An empty class
catches everything. Entries of one region belong to the same source construct. -/
structure Handler where
  start : UInt32
  stop : UInt32
  target : UInt32
  cls : Text
  region : UInt32
  kind : UInt8
deriving DecidableEq, Repr

namespace Handler

/-- The kind of an ordinary handler. -/
def catchKind : UInt8 := 0
/-- The kind of a handler that always runs; it catches everything. -/
def cleanupKind : UInt8 := 1

/-- Is instruction `pc` protected? -/
def covers (h : Handler) (pc : Nat) : Bool := h.start.toNat ≤ pc && pc < h.stop.toNat

end Handler

/-- The recorded types before an instruction, stack slots from the bottom up. -/
structure FrameEntry where
  instr : UInt32
  locals : List Ty
  stack : List Ty
deriving DecidableEq, Repr

/-- One function. -/
structure Func where
  name : Text
  params : List Ty := []
  result : Ty := .void
  code : Bytes := []
  handlers : List Handler := []
  frames : List FrameEntry := []
  maxStack : UInt32 := 0
  maxLocals : UInt32 := 0
  flags : UInt8 := 0
deriving DecidableEq, Repr

namespace Func

/-- The flag of a body that was turned into a state machine. -/
def transformedFlag : UInt8 := 1
/-- The flag of a function that resumes another one. -/
def continuationFlag : UInt8 := 2

/-- Was the body turned into a state machine? -/
def isTransformed (f : Func) : Bool := f.flags &&& transformedFlag != 0

/-- Does the function resume another one? -/
def isContinuation (f : Func) : Bool := f.flags &&& continuationFlag != 0

end Func

/-- A named section that is carried along as it is. -/
structure CustomSection where
  name : Text
  data : Bytes
deriving DecidableEq, Repr

/-- A code unit. -/
structure CodeUnit where
  strings : List Text := []
  classes : List ClassDecl := []
  symbols : List Symbol := []
  records : List Layout := []
  functions : List Func := []
  custom : List CustomSection := []
deriving DecidableEq, Repr

namespace CodeUnit

/-- The index of the first function with a name. -/
def findFunction (u : CodeUnit) (name : Text) : Option Nat :=
  u.functions.findIdx? fun f => f.name = name

/-! ### Growing the tables -/

/-- The index of a string in the pool, which is extended if the string is new. -/
def addString (u : CodeUnit) (s : Text) : UInt32 × CodeUnit :=
  match u.strings.findIdx? (· = s) with
  | some i => (UInt32.ofNat i, u)
  | none => (UInt32.ofNat u.strings.length, { u with strings := u.strings ++ [s] })

/-- The index of the first symbol that is written like `s`; the table is extended if there is
none. -/
def addSymbol (u : CodeUnit) (s : Symbol) : UInt32 × CodeUnit :=
  match u.symbols.findIdx? (·.text = s.text) with
  | some i => (UInt32.ofNat i, u)
  | none => (UInt32.ofNat u.symbols.length, { u with symbols := u.symbols ++ [s] })

/-- The index of a new record layout at the end of the table. -/
def addRecord (u : CodeUnit) (l : Layout) : UInt32 × CodeUnit :=
  (UInt32.ofNat u.records.length, { u with records := u.records ++ [l] })

end CodeUnit

end Resumable
