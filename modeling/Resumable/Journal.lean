import Resumable.Text.Basic

/-!
# What is told on the way

Work on a unit writes log entries, and messages for the person who started it.
-/

namespace Resumable

/-- How much a log entry matters. -/
inductive Level
  | debug | info | warn | error
deriving DecidableEq, Repr

/-- The name of a level. -/
def Level.name : Level → Text
  | debug => "debug"
  | info => "info"
  | warn => "warn"
  | error => "error"

/-- What a log entry says about one thing. -/
inductive LogValue
  | text (t : Text)
  | number (n : Int)
  | numbers (ns : List Nat)
  /-- Something is known that is not written out. -/
  | present
deriving DecidableEq, Repr

/-- A log entry. -/
structure LogEntry where
  level : Level
  message : Text
  fields : List (Text × LogValue) := []
deriving DecidableEq, Repr

/-- Log entries and messages, both in the order in which they came. -/
structure Journal where
  logs : List LogEntry := []
  diagnostics : List Text := []
deriving DecidableEq, Repr, Inhabited

namespace Journal

/-- Adds a log entry. -/
def log (j : Journal) (e : LogEntry) : Journal := { j with logs := j.logs ++ [e] }

/-- Adds a message, which is also logged. -/
def report (j : Journal) (message : Text) : Journal :=
  { logs := j.logs ++
      [{ level := .warn, message := "transform diagnostic"
         fields := [("message", .text message)] }]
    diagnostics := j.diagnostics ++ [message] }

end Journal

end Resumable
