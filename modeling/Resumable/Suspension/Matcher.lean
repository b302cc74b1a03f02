import Resumable.Text.Basic

/-!
# Which calls suspend

A call is known by the class that owns it and by its name. Matchers decide which calls may suspend
the caller and which functions are left alone.
-/

namespace Resumable

/-- Decides about a call from its owner and its name. -/
abbrev CallMatcher := Text → Text → Bool

namespace CallMatcher

/-- The owner and the name, with a dot between. -/
def qualified (owner name : Text) : Text := owner ++ "." ++ name

/-- Matches the calls whose name, or owner and name, is in a list. -/
def exact (patterns : List Text) : CallMatcher := fun owner name =>
  qualified owner name ∈ patterns || name ∈ patterns

/-- Does one pattern match? `*` matches every call, `Owner.*` all calls of one owner, a pattern with
a dot one call, and any other one all calls with that name. -/
def matchesPattern (pattern owner name : Text) : Bool :=
  if pattern = "*" then true
  else if pattern.endsWith ".*" then pattern = qualified owner "*"
  else if pattern.bytes.contains 46 then pattern = qualified owner name
  else pattern = name

/-- Matches the calls that one of some patterns matches. -/
def wildcard (patterns : List Text) : CallMatcher := fun owner name =>
  patterns.any (matchesPattern · owner name)

/-- Matches what one of some matchers matches. -/
def anyOf (matchers : List CallMatcher) : CallMatcher := fun owner name =>
  matchers.any (· owner name)

/-- The class that owns the suspending call. -/
def awaitOwner : Text := "async/Await"

/-- Matches `async/Await.await` only. -/
def await : CallMatcher := fun owner name => owner = awaitOwner && name = "await"

/-- Matches `async/Await.await`, and any call whose name is written that way. -/
def standard : CallMatcher := exact [qualified awaitOwner "await"]

/-- The standard matcher, and patterns for more calls if there are any. -/
def withIntrinsics (patterns : List Text) : CallMatcher :=
  if patterns.isEmpty then standard else anyOf [standard, wildcard patterns]

end CallMatcher

/-- Decides about a function from its name. -/
abbrev NameMatcher := Text → Bool

namespace NameMatcher

/-- Matches no function. -/
def nothing : NameMatcher := fun _ => false

/-- Matches the names in a list. -/
def exact (names : List Text) : NameMatcher := fun name => name ∈ names

/-- Matches the names that begin with one of some texts. -/
def beginning (starts : List Text) : NameMatcher := fun name => starts.any name.startsWith

/-- Matches what one of some matchers matches. -/
def anyOf (matchers : List NameMatcher) : NameMatcher := fun name => matchers.any (· name)

end NameMatcher

end Resumable
