import Resumable.CodeUnit.Body
import Resumable.CodeUnit.Writer
import Resumable.Error

/-!
# Reading code units

Sections other than custom ones come in increasing order and each fills its size exactly. When all
sections are read, the body of every function is checked.
-/

namespace Resumable

open Wire

/-- Why an entry of a table cannot be read. -/
inductive EntryFault
  | wire (fault : Fault)
  | stringIndex (index : UInt32) (count : Nat)
  | typeTag (tag : UInt8)
deriving DecidableEq, Repr

/-- The text of a fault. -/
def EntryFault.message : EntryFault → Text
  | .wire fault => fault.message
  | .stringIndex i n =>
    "string index " ++ Text.ofNat i.toNat ++ " out of range (" ++ Text.ofNat n ++ " strings)"
  | .typeTag tag => "invalid type tag 0x" ++ Text.hexPadded 2 tag.toNat

instance : MonadLift (Reader Fault) (Reader EntryFault) := ⟨ExceptT.adapt EntryFault.wire⟩

/-- Why the contents of a section cannot be read. -/
inductive SectionFault
  | entry (fault : EntryFault)
  | function (index : Nat) (fault : EntryFault)
deriving DecidableEq, Repr

/-- The text of a fault. -/
def SectionFault.message : SectionFault → Text
  | .entry fault => fault.message
  | .function i fault => "function " ++ Text.ofNat i ++ ": " ++ fault.message

instance : MonadLift (Reader EntryFault) (Reader SectionFault) := ⟨ExceptT.adapt SectionFault.entry⟩

/-- Why bytes are no unit. -/
inductive UnitFault
  | header (position : Nat) (fault : Fault)
  | invalidMagic
  | invalidVersion
  | outOfOrder (id : UInt8)
  | sectionSize (position : Nat) (fault : Fault)
  | sectionData (position : Nat) (fault : Fault)
  | unknownSection (id : UInt8)
  | contents (s : Section) (fault : SectionFault)
  | trailing (s : Section) (count : Nat)
  | body (function : Text) (fault : BodyFault)
deriving DecidableEq, Repr

/-- The error that describes a fault. -/
def UnitFault.error : UnitFault → Error
  | .header position fault => located "header" position fault
  | .invalidMagic => .plain .invalidMagic
  | .invalidVersion => .plain .invalidVersion
  | .outOfOrder id => .ofText ("section " ++ Text.ofNat id.toNat ++ " appears out of order")
  | .sectionSize position fault => located "section size" position fault
  | .sectionData position fault => located "section data" position fault
  | .unknownSection id => .ofText ("unknown section ID: 0x" ++ Text.hexPadded 2 id.toNat)
  | .contents s fault => .ofText (s.name ++ " section: " ++ fault.message)
  | .trailing s count => .ofText (s.name ++ " section: " ++ Text.ofNat count ++ " trailing bytes")
  | .body function fault => .ofText ("function " ++ function.quoted ++ ": " ++ fault.message)
where
  located (part : Text) (position : Nat) (fault : Fault) : Error :=
    .because (.located part position) (.ofText fault.message)

namespace CodeUnit.Read

/-! ### Entries -/

/-- A string by its place in the pool. -/
def string (strings : List Text) : Reader EntryFault Text := do
  let i ← Reader.u32
  match item? strings i with
  | some s => return s
  | none => throw (.stringIndex i strings.length)

/-- A string that may be absent. -/
def optional (strings : List Text) : Reader EntryFault Text := do
  let i ← Reader.u32
  if i = 0 then return ∅
  else
    match item? strings (i - 1) with
    | some s => return s
    | none => throw (.stringIndex (i - 1) strings.length)

def type (strings : List Text) : Reader EntryFault Ty := do
  let tag ← Reader.byte
  if tag = 0 then return .void
  else if tag = 1 then return .int
  else if tag = 2 then return .null
  else if tag = 3 then return .top
  else if tag = 4 then return .ref (← string strings)
  else throw (.typeTag tag)

/-- The length of a list, then its items. -/
def vector {α : Type} (item : Reader EntryFault α) : Reader EntryFault (List α) := do
  let n ← Reader.len
  Reader.times item n

def types (strings : List Text) : Reader EntryFault (List Ty) := vector (type strings)

def classDecl (strings : List Text) : Reader EntryFault ClassDecl := do
  let name ← string strings
  return { name, super := ← optional strings }

def symbol (strings : List Text) : Reader EntryFault Symbol := do
  let owner ← optional strings
  let name ← string strings
  let params ← types strings
  return { owner, name, params, result := ← type strings }

def layout (strings : List Text) : Reader EntryFault Layout := do
  let function ← string strings
  let point ← Reader.u32
  return { function, point, fields := ← types strings }

def handler (strings : List Text) : Reader EntryFault Handler := do
  let start ← Reader.u32
  let stop ← Reader.u32
  let target ← Reader.u32
  let cls ← optional strings
  let region ← Reader.u32
  return { start, stop, target, cls, region, kind := ← Reader.byte }

def frame (strings : List Text) : Reader EntryFault FrameEntry := do
  let instr ← Reader.u32
  let locals ← types strings
  return { instr, locals, stack := ← types strings }

def func (strings : List Text) : Reader EntryFault Func := do
  let name ← string strings
  let flags ← Reader.byte
  let params ← types strings
  let result ← type strings
  let maxStack ← Reader.u32
  let maxLocals ← Reader.u32
  let size ← Reader.len
  let code ← Reader.bytes size
  let handlers ← vector (handler strings)
  let frames ← vector (frame strings)
  return { name, params, result, code, handlers, frames, maxStack, maxLocals, flags }

/-- `count` functions, the first of which has the given index. -/
def funcs (strings : List Text) : (count index : Nat) → Reader SectionFault (List Func)
  | 0, _ => return []
  | count + 1, index => do
    let f ← ExceptT.adapt (SectionFault.function index) (func strings)
    return f :: (← funcs strings count (index + 1))

/-! ### Sections -/

/-- Adds the contents of a section to the unit. -/
def contents (u : CodeUnit) : Section → Reader SectionFault CodeUnit
  | .custom => do
    let name ← liftM (liftM Reader.name : Reader EntryFault Text)
    let data ← liftM (liftM Reader.remaining : Reader EntryFault Bytes)
    return { u with custom := u.custom ++ [{ name, data }] }
  | .strings => return { u with strings := ← vector (liftM Reader.name) }
  | .classes => return { u with classes := ← vector (classDecl u.strings) }
  | .symbols => return { u with symbols := ← vector (symbol u.strings) }
  | .records => return { u with records := ← vector (layout u.strings) }
  | .functions => do
    let n ← liftM (liftM Reader.len : Reader EntryFault Nat)
    return { u with functions := ← funcs u.strings n 0 }

/-- Reads the payload of a section, which must be used up. -/
def payload (u : CodeUnit) (s : Section) (data : Bytes) : Except UnitFault CodeUnit :=
  match (contents u s).run data with
  | (.error fault, _) => .error (.contents s fault)
  | (.ok u, c) => if c.rest.isEmpty then .ok u else .error (.trailing s c.rest.length)

/-- Makes a fault of a primitive one of the unit, with the position where reading stopped. -/
def placed {α : Type} (fault : Nat → Fault → UnitFault) (r : Reader Fault α) :
    Reader UnitFault α := fun c =>
  match (ExceptT.run r) c with
  | (.ok a, c) => (.ok a, c)
  | (.error f, c) => (.error (fault c.position f), c)

/-- Sections up to the end of the input, at most `most` of them. `last` is the highest number of a
section so far. -/
def sections : (most : Nat) → (last : UInt8) → CodeUnit → Reader UnitFault CodeUnit
  | 0, _, u => return u
  | most + 1, last, u => do
    match (← get).rest with
    | [] => return u
    | id :: rest =>
      set (Cursor.mk rest ((← get).position + 1))
      if id ≠ Section.custom.id && id ≤ last then throw (.outOfOrder id)
      let last := if id = Section.custom.id then last else id
      let size ← placed .sectionSize Reader.u32
      let data ← placed .sectionData (Reader.bytes size.toNat)
      match Section.ofId? id with
      | none => throw (.unknownSection id)
      | some s =>
        let u ← liftExcept (payload u s data)
        sections most last u
where
  liftExcept {α : Type} : Except UnitFault α → Reader UnitFault α
    | .ok a => return a
    | .error f => throw f

/-- The header and all sections. -/
def whole (size : Nat) : Reader UnitFault CodeUnit := do
  let magic ← placed .header Reader.u32le
  if magic ≠ unitMagic then throw .invalidMagic
  let version ← placed .header Reader.u32le
  if version ≠ unitVersion then throw .invalidVersion
  sections size 0 {}

end CodeUnit.Read

namespace CodeUnit

/-- Checks the body of every function. -/
def checkBodies (u : CodeUnit) : Except UnitFault Unit :=
  u.functions.forM fun f =>
    match u.bodyOf f with
    | .ok _ => .ok ()
    | .error fault => .error (.body f.name fault)

/-- The unit that bytes stand for, with the fault if there is none. -/
def parse (data : Bytes) : Except UnitFault CodeUnit := do
  let u ← ((Read.whole data.length).run data).1
  u.checkBodies
  return u

/-- The unit that bytes stand for. -/
def decode (data : Bytes) : Except Error CodeUnit := (parse data).mapError UnitFault.error

end CodeUnit

end Resumable
