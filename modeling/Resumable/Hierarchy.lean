import Resumable.CodeUnit.Basic

/-!
# The class hierarchy

Classes are known by name. A unit declares some, a resolver may know others, and a few are built in.
Nothing keeps a unit from declaring a cycle, so every walk towards the root is bounded: a subclass
test looks at 257 superclasses and a common ancestor is searched among 256.
-/

namespace Resumable

/-- A source of superclasses. -/
abbrev Resolver := Text → Option Text

/-- The resolver that knows no class. -/
def Resolver.none : Resolver := fun _ => Option.none

/-- The built-in classes, all right below the root. -/
def builtinSuper : Resolver := fun name =>
  if name ∈ [ClassName.string, ClassName.error, ClassName.future, ClassName.state,
      ClassName.machine] then
    some ClassName.object
  else .none

/-- The classes known to a unit. -/
structure Hierarchy where
  super : Resolver

namespace Hierarchy

/-- Classes declared in a table come first, the last declaration of a name being the one that
counts; then those of the resolver, then the built-in ones. -/
def ofClasses (classes : List ClassDecl) (loader : Resolver) : Hierarchy where
  super name :=
    match classes.reverse.find? (·.name = name) with
    | some c => some (if c.super.isEmpty then ClassName.object else c.super)
    | none => (loader name).or (builtinSuper name)

/-- A class, and at most `n` superclasses on its way to the root. -/
def chain (h : Hierarchy) : Nat → Text → List Text
  | 0, c => [c]
  | n + 1, c =>
    match h.super c with
    | some s => c :: h.chain n s
    | none => [c]

/-- Is `sub` the class `sup` or below it? Every class is below the root. -/
def isSubclass (h : Hierarchy) (sub sup : Text) : Bool :=
  sup = ClassName.object || sup ∈ h.chain 257 sub

/-- The nearest class that both descend from. -/
def commonAncestor (h : Hierarchy) (a b : Text) : Text :=
  if a = b then a
  else
    let above := h.chain 256 a
    ((h.chain 256 b).find? (· ∈ above)).getD ClassName.object

/-- May a value of the first type be used where the second is wanted? -/
def assignable (h : Hierarchy) : Ty → Ty → Bool
  | .int, .int => true
  | .null, .null => true
  | .null, .ref _ => true
  | .ref a, .ref b => h.isSubclass a b
  | .void, .top => false
  | _, .top => true
  | _, _ => false

end Hierarchy

/-- The hierarchy of a unit. -/
def CodeUnit.hierarchy (u : CodeUnit) (loader : Resolver) : Hierarchy :=
  Hierarchy.ofClasses u.classes loader

end Resumable
