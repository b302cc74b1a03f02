import Resumable.Text.Utf8

/-!
# Structured output

Reports are written as nested objects and lists, one member per line. Characters that mean something
to a web page are written as escapes.
-/

namespace Resumable

/-- Data to be written. -/
inductive Tree
  | text (t : Text)
  | number (n : Nat)
  | list (items : List Tree)
  | object (members : List (Text × Tree))
deriving Repr

namespace Tree

/-- A character inside a string. -/
def escaped (c : Char) : Text :=
  if c = '"' then "\\\""
  else if c = '\\' then "\\\\"
  else if c = '\n' then "\\n"
  else if c = '\r' then "\\r"
  else if c = '\t' then "\\t"
  else if c.toNat < 32 || c = '<' || c = '>' || c = '&' || c.toNat = 0x2028 || c.toNat = 0x2029 then
    "\\u" ++ Text.hexPadded 4 c.toNat
  else Text.ofChar c

/-- A string. A byte that is no character is written as the replacement character. -/
def string (t : Text) : Text :=
  "\"" ++ Text.concat (t.runes.map fun
    | .char c => escaped c
    | .stray _ => "\\ufffd") ++ "\""

/-- A line break and the indentation of a level. -/
def newLine (level : Nat) : Text := "\n" ++ Text.concat (List.replicate level "  ")

/-- Members between brackets, one per line. -/
def bracketed (opening closing : Text) (level : Nat) (members : List Text) : Text :=
  if members.isEmpty then opening ++ closing
  else
    opening ++ newLine (level + 1) ++ Text.join ("," ++ newLine (level + 1)) members ++
      newLine level ++ closing

/-- The written form at a level of nesting. -/
def render (level : Nat) : Tree → Text
  | text t => string t
  | number n => Text.ofNat n
  | list items => bracketed "[" "]" level (renderAll (level + 1) items)
  | object members => bracketed "\x7b" "\x7d" level (renderMembers (level + 1) members)
where
  renderAll (level : Nat) : List Tree → List Text
    | [] => []
    | t :: rest => t.render level :: renderAll level rest
  renderMembers (level : Nat) : List (Text × Tree) → List Text
    | [] => []
    | (name, t) :: rest => (string name ++ ": " ++ t.render level) :: renderMembers level rest

end Tree

end Resumable
