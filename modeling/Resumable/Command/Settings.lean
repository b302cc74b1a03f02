import Resumable.Transform

/-!
# Settings

What a project file can say about transformations. Flags of the command line come before it.
-/

namespace Resumable

/-- The settings of a project. -/
structure Settings where
  /-- Where transformed units go; in place if empty. -/
  output : Text := ∅
  /-- More suspending calls, as patterns. -/
  intrinsics : List Text := []
  /-- Functions that are left as they are. -/
  exclude : List Text := []
  /-- Unit files and directories whose classes are known to every unit. -/
  classpath : List Text := []
  /-- Where the report of a batch goes; nowhere if empty. -/
  report : Text := ∅
  /-- How many units may be worked on at the same time. -/
  workers : Int := 0
  verbose : Bool := false
deriving DecidableEq, Repr, Inhabited

/-- The options of a transformation under these settings. -/
def Settings.options (s : Settings) (loader : Resolver) : TransformOptions where
  matcher := .withIntrinsics s.intrinsics
  exclude := .exact s.exclude
  loader := loader

/-- The bytes of a unit, transformed if there is something to be done. -/
def Settings.transformed (s : Settings) (loader : Resolver) (data : Bytes) : Journaled Bytes := do
  let (result, journal) := (Transform.bytes (s.options loader) data).outcome
  modify fun j =>
    { logs := j.logs ++ journal.logs, diagnostics := j.diagnostics ++ journal.diagnostics }
  match result with
  | .ok out => return out
  | .error f => if f = .error Transform.unchanged then return data else throw f

end Resumable
