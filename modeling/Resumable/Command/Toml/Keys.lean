import Resumable.Command.Toml

/-!
# Keys that are defined twice

No key of a TOML document may be defined twice. A header opens a table once only, even if keys with
dots or the headers of tables inside it have led through it before, and keys with dots do not lead
into a table that a header has opened. A list of tables may be continued any number of times.
-/

namespace Resumable

namespace Toml

/-- What a key stands for. -/
inductive KeyKind
  | value
  | table
  | elements
deriving DecidableEq, Repr

/-- The name of a kind in messages. -/
def KeyKind.name : KeyKind → Text
  | value => "value"
  | table => "table"
  | elements => "array table"

/-- A key that has been seen. -/
structure Seen where
  /-- The keys that lead to it, with the key itself. -/
  path : List Text
  kind : KeyKind
  /-- Is it closed to keys with dots? -/
  explicit : Bool
  /-- Did it come from a line with a value under the last header? -/
  fresh : Bool
deriving DecidableEq, Repr

/-- Why a line does not fit the lines before it. -/
inductive KeyFault
  | notTable (key : Text) (kind : KeyKind)
  | noTable (key : Text) (kind : KeyKind)
  | tableTwice (key : Text)
  | notElements (key : Text) (kind : KeyKind)
  | keyTwice (key : Text)
  | closed (key : Text)
deriving DecidableEq, Repr

/-- The text of a fault. -/
def KeyFault.message : KeyFault → Text
  | notTable k kind => "expected " ++ k ++ " to be a table, not a " ++ kind.name
  | noTable k kind => "key " ++ k ++ " should be a table, not a " ++ kind.name
  | tableTwice k => "table " ++ k ++ " already exists"
  | notElements k kind =>
    "key " ++ kind.name ++ " already exists as a " ++ k ++ ",  but should be an array table"
  | keyTwice k => "key " ++ k ++ " is already defined"
  | closed k => "cannot redefine table " ++ k ++ " that has already been explicitly defined"

/-- The keys of a document so far. -/
structure Keys where
  seen : List Seen := []
  /-- The keys of the last header. -/
  header : List Text := []
deriving Repr

namespace Keys

/-- The key at the end of a path. -/
def last (path : List Text) : Text := path.getLast?.getD ∅

/-- What is known of a path. -/
def find? (ks : Keys) (path : List Text) : Option Seen := ks.seen.find? (·.path = path)

/-- Notes a path, instead of what was known of it. -/
def note (ks : Keys) (s : Seen) : Keys :=
  { ks with seen := s :: ks.seen.filter (·.path ≠ s.path) }

/-- All paths that lead to a path, the path itself left out. -/
def above (path : List Text) : List (List Text) :=
  (List.range (path.length - 1)).map fun k => path.take (k + 1)

/-- Closes what the lines under the last header have opened. -/
def close (ks : Keys) : Keys :=
  { ks with seen := ks.seen.map fun s =>
      if ks.header.isPrefixOf s.path && s.path ≠ ks.header && s.fresh then
        { s with explicit := true, fresh := false }
      else s }

/-- Notes the tables that a header leads through. -/
def enter (ks : Keys) (path : List Text) : Except KeyFault Keys :=
  (above path).foldlM (fun ks p =>
    match ks.find? p with
    | none => .ok (ks.note { path := p, kind := .table, explicit := false, fresh := false })
    | some s => if s.kind = .value then .error (.notTable (last p) s.kind) else .ok ks) ks

/-- Notes the tables that a key with dots leads through. -/
def pass (ks : Keys) (path : List Text) : Except KeyFault Keys :=
  ((above path).filter fun p => ks.header.length < p.length).foldlM (fun ks p =>
    match ks.find? p with
    | none => .ok (ks.note { path := p, kind := .table, explicit := false, fresh := true })
    | some s =>
      if s.kind ≠ .table then .error (.notTable (last p) s.kind)
      else if s.explicit then .error (.closed (last p))
      else .ok ks) ks

/-- Notes a key that gets a value. -/
def define (ks : Keys) (keys : List Text) : Except KeyFault Keys := do
  let path := ks.header ++ keys
  let ks ← ks.pass path
  match ks.find? path with
  | some _ => .error (.keyTwice (last path))
  | none => .ok (ks.note { path, kind := .value, explicit := false, fresh := true })

mutual

/-- Checks that no table inside a value defines a key twice. -/
def checkValue : Value → Except KeyFault Unit
  | .list vs => checkValues vs
  | .table ms => checkMembers {} ms
  | _ => .ok ()

def checkValues : List Value → Except KeyFault Unit
  | [] => .ok ()
  | v :: rest => do
    checkValue v
    checkValues rest

def checkMembers (ks : Keys) : List (List Text × Value) → Except KeyFault Unit
  | [] => .ok ()
  | (keys, v) :: rest => do
    let ks ← ks.define keys
    checkValue v
    checkMembers ks rest

end

/-- The keys after one more line. -/
def add (ks : Keys) : Line → Except KeyFault Keys
  | .table path => do
    let ks ← ks.close.enter path
    let opened : Seen := { path, kind := .table, explicit := true, fresh := false }
    match ks.find? path with
    | none => .ok { ks.note opened with header := path }
    | some s =>
      if s.kind ≠ .table then .error (.noTable (last path) s.kind)
      else if s.explicit then .error (.tableTwice (last path))
      else .ok { ks.note { s with explicit := true } with header := path }
  | .element path => do
    let ks ← ks.close.enter path
    let opened : Seen := { path, kind := .elements, explicit := true, fresh := false }
    match ks.find? path with
    | none => .ok { ks.note opened with header := path }
    | some s =>
      if s.kind ≠ .elements then .error (.notElements (last path) s.kind)
      else
        let inside (t : Seen) : Bool := path.isPrefixOf t.path && t.path ≠ path
        .ok { seen := ks.seen.filter (!inside ·), header := path }
  | .assignment keys v => do
    let ks ← ks.define keys
    checkValue v
    return ks

end Keys

end Toml

end Resumable
