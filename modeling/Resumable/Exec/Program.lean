import Resumable.CodeUnit.Body
import Resumable.CodeUnit.Reader
import Resumable.Exec.Activation
import Resumable.Exec.Native

/-!
# Programs

A program is a unit that is ready to run: its bodies are decoded and checked, and its natives are
known.
-/

namespace Resumable

/-- A unit that is ready to run. -/
structure Program where
  unit : CodeUnit
  bodies : List Body
  classes : Hierarchy
  /-- Natives of the host, which come before the built-in ones. -/
  host : Text → Option Native
  /-- The deepest nesting of calls. -/
  maxDepth : Int
  /-- Are debug entries logged? -/
  debug : Bool

/-- How a program is set up. -/
structure ProgramOptions where
  loader : Resolver := .none
  host : Text → Option Native := fun _ => none
  maxDepth : Int := 512
  debug : Bool := false

namespace Program

/-- The body of a function, or the error of a unit that cannot be loaded. -/
def bodyFor (u : CodeUnit) (f : Func) : Except Error Body :=
  match u.bodyOf f with
  | .ok code => .ok { func := f, code }
  | .error fault => .error (.load ("function " ++ f.name) (some (.ofText fault.message)))

/-- The program of a unit. -/
def ofUnit (u : CodeUnit) (o : ProgramOptions) : Except Error Program := do
  return { unit := u, bodies := ← u.functions.mapM (bodyFor u), classes := u.hierarchy o.loader
           host := o.host, maxDepth := o.maxDepth, debug := o.debug }

/-- The program of an encoded unit. -/
def load (data : Bytes) (o : ProgramOptions) : Except Error Program :=
  match CodeUnit.decode data with
  | .error e => .error (.load "parse unit" (some e))
  | .ok u => ofUnit u o

/-- The function with a name; if there are several, the last one. -/
def body? (p : Program) (name : Text) : Option Body :=
  p.bodies.reverse.find? fun b => b.func.name = name

/-- The native with a key. -/
def native? (p : Program) (key : Text) : Option Native := (p.host key).or (Native.builtin? key)

/-- What activations know about the world while a store is as it is. -/
def surroundings (p : Program) (s : Store) : Surroundings :=
  { unit := p.unit, classes := p.classes, classOf := s.classOf, format := s.format }

end Program

end Resumable
