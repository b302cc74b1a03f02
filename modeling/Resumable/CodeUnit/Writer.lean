import Resumable.CodeUnit.Basic
import Resumable.Wire.Writer

/-!
# Code units as bytes

A header, then sections with increasing numbers; custom sections come first. The tables refer to
strings by their place in the pool. A string that the tables need and the pool lacks is added behind
the pool's own strings, so the indices inside function bodies keep their meaning.
-/

namespace Resumable

open Wire

/-- The first four bytes of a unit. -/
def unitMagic : UInt32 := 0x41535943

/-- The version of the format. -/
def unitVersion : UInt32 := 1

/-- The numbers of the sections. -/
inductive Section
  | custom | strings | classes | symbols | records | functions
deriving DecidableEq, Repr

namespace Section

def id : Section → UInt8
  | custom => 0
  | strings => 1
  | classes => 2
  | symbols => 3
  | records => 4
  | functions => 5

def name : Section → Text
  | custom => "custom"
  | strings => "strings"
  | classes => "classes"
  | symbols => "symbols"
  | records => "records"
  | functions => "functions"

def ofId? (b : UInt8) : Option Section :=
  [custom, strings, classes, symbols, records, functions].find? (·.id = b)

end Section

/-- The bytes of a type that come before its class. -/
def Ty.tag : Ty → UInt8
  | .void => 0
  | .int => 1
  | .null => 2
  | .top => 3
  | .ref _ => 4

/-- The strings written so far, without repetition. -/
abbrev Pool := List Text

namespace Pool

/-- The place of a string in the pool, which is extended if the string is new. -/
def intern (s : Text) : StateM Pool UInt32 := fun pool =>
  match pool.findIdx? (· = s) with
  | some i => (UInt32.ofNat i, pool)
  | none => (UInt32.ofNat pool.length, pool ++ [s])

/-- A string by its place. -/
def string (s : Text) : StateM Pool Bytes := return u32 (← intern s)

/-- A string that may be absent: its place plus one, or zero for the empty string. -/
def optional (s : Text) : StateM Pool Bytes :=
  if s.isEmpty then return u32 0 else return u32 ((← intern s) + 1)

/-- A type: its tag, and the class of a reference. -/
def type (t : Ty) : StateM Pool Bytes :=
  match t with
  | .ref cls => return t.tag :: (← string cls)
  | _ => return [t.tag]

/-- The items one after the other. -/
def each {α : Type} (item : α → StateM Pool Bytes) : List α → StateM Pool Bytes
  | [] => return []
  | a :: rest => return (← item a) ++ (← each item rest)

/-- The length of a list, then its items. -/
def vector {α : Type} (item : α → StateM Pool Bytes) (items : List α) : StateM Pool Bytes :=
  return len items.length ++ (← each item items)

def types (ts : List Ty) : StateM Pool Bytes := vector type ts

def classDecl (c : ClassDecl) : StateM Pool Bytes :=
  return (← string c.name) ++ (← optional c.super)

def symbol (s : Symbol) : StateM Pool Bytes :=
  return (← optional s.owner) ++ (← string s.name) ++ (← types s.params) ++ (← type s.result)

def layout (l : Layout) : StateM Pool Bytes :=
  return (← string l.function) ++ u32 l.point ++ (← types l.fields)

def handler (h : Handler) : StateM Pool Bytes :=
  return u32 h.start ++ u32 h.stop ++ u32 h.target ++ (← optional h.cls) ++ u32 h.region ++ [h.kind]

def frame (f : FrameEntry) : StateM Pool Bytes :=
  return u32 f.instr ++ (← types f.locals) ++ (← types f.stack)

def func (f : Func) : StateM Pool Bytes :=
  return (← string f.name) ++ [f.flags] ++ (← types f.params) ++ (← type f.result) ++
    u32 f.maxStack ++ u32 f.maxLocals ++ len f.code.length ++ f.code ++
    (← vector handler f.handlers) ++ (← vector frame f.frames)

/-- A table, which is left out if it has no items. -/
def table {α : Type} (s : Section) (item : α → StateM Pool Bytes) (items : List α) :
    StateM Pool Bytes :=
  if items.isEmpty then return [] else return block s.id (← vector item items)

/-- The sections of the tables. -/
def tables (u : CodeUnit) : StateM Pool Bytes :=
  return (← table .classes classDecl u.classes) ++ (← table .symbols symbol u.symbols) ++
    (← table .records layout u.records) ++ (← table .functions func u.functions)

/-- A pool that starts with these strings, each at its first place. -/
def ofStrings (strings : List Text) : Pool :=
  strings.foldl (fun pool s => (intern s pool).2) []

end Pool

/-- The section of the pool, which is left out if the pool is empty. -/
def poolSection (pool : Pool) : Bytes :=
  if pool.isEmpty then [] else block Section.strings.id (vector name pool)

/-- A custom section. -/
def CustomSection.encode (s : CustomSection) : Bytes :=
  block Section.custom.id (Wire.name s.name ++ s.data)

/-- The bytes of a unit. -/
def CodeUnit.encode (u : CodeUnit) : Bytes :=
  let (tables, pool) := (Pool.tables u).run (Pool.ofStrings u.strings)
  u32le unitMagic ++ u32le unitVersion ++ u.custom.flatMap CustomSection.encode ++
    poolSection pool ++ tables

end Resumable
