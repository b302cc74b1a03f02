import Resumable.Error

/-!
# Flags

Arguments that begin with a dash set flags. A flag has one or two dashes before its name; its value
follows an equals sign or is the next argument. Flags end at the first argument without a dash and
at `--`. Before that, flags of a command that stand behind other arguments are moved to the front;
a `--` ends this too, and then stands right behind the flags.
-/

namespace Resumable

/-- A flag. -/
structure Flag where
  /-- All names, each of which can be used to ask for it. -/
  names : List Text
  takesValue : Bool
deriving DecidableEq, Repr

/-- Arguments with the flags taken out. -/
structure Arguments where
  /-- Names and values, in order. A flag with several names is there under each. -/
  flags : List (Text × Text) := []
  rest : List Text := []
deriving DecidableEq, Repr

namespace Arguments

/-- All values of a flag. -/
def values (a : Arguments) (name : Text) : List Text :=
  (a.flags.filter fun (n, _) => n = name).map Prod.snd

/-- The last value of a flag. -/
def value? (a : Arguments) (name : Text) : Option Text := (a.values name).getLast?

/-- Is a flag without a value set? -/
def isOn (a : Arguments) (name : Text) : Bool := a.value? name = some "true"

/-- The arguments with one more flag, which comes before the others. -/
def set (a : Arguments) (f : Flag) (value : Text) : Arguments :=
  { a with flags := f.names.map (·, value) ++ a.flags }

end Arguments

namespace Flag

/-- The equals sign. -/
def equals : UInt8 := 61

/-- What follows one or two dashes; nothing if there is none, or nothing behind it. -/
def body? (arg : Text) : Option Bytes :=
  match arg.bytes with
  | [45] | [45, 45] => none
  | 45 :: 45 :: rest => some rest
  | 45 :: rest => some rest
  | _ => none

/-- The name before the first equals sign, and the value behind it. -/
def split (body : Bytes) : Text × Option Text :=
  let name := body.takeWhile (· ≠ equals)
  (⟨name⟩, if name.length < body.length then some ⟨body.drop (name.length + 1)⟩ else none)

/-- The flag with a name. -/
def find (flags : List Flag) (name : Text) : Option Flag := flags.find? (name ∈ ·.names)

/-- Does an argument set one of some flags? -/
def isOneOf (flags : List Flag) (arg : Text) : Bool :=
  match body? arg with
  | none => false
  | some body => (find flags (split body).1).isSome

/-- The flags, each with the argument behind it, and all other arguments. Nothing is moved behind
`--`, which comes first of the others. -/
def reorder (flags : List Flag) : (expectsValue : Bool) → (others : List Text) → List Text →
    List Text × List Text
  | _, others, [] => ([], others)
  | expectsValue, others, arg :: rest =>
    if expectsValue && !isOneOf flags arg then
      let (front, back) := reorder flags false others rest
      (arg :: front, back)
    else if arg = "--" then ([], arg :: others ++ rest)
    else if isOneOf flags arg then
      let (front, back) := reorder flags (!arg.bytes.contains equals) others rest
      (arg :: front, back)
    else reorder flags false (others ++ [arg]) rest

/-- The truth value that a text stands for. -/
def truth? (t : Text) : Option Text :=
  if t ∈ [("1" : Text), "t", "T", "true", "TRUE", "True"] then some "true"
  else if t ∈ [("0" : Text), "f", "F", "false", "FALSE", "False"] then some "false"
  else none

/-- Takes the flags from the front of some arguments. -/
def parse (flags : List Flag) : List Text → Except Error Arguments
  | [] => .ok {}
  | arg :: rest =>
    if arg = "--" then .ok { rest }
    else
      match body? arg with
      | none => .ok { rest := arg :: rest }
      | some body =>
        let (name, given) := split body
        match find flags name with
        | none => .error (.ofText ("flag provided but not defined: -" ++ name))
        | some f =>
          if !f.takesValue then
            match truth? (given.getD "true") with
            | none => .error (.ofText ("invalid boolean value " ++ (given.getD ∅).quoted ++
                " for -" ++ name))
            | some value => (parse flags rest).map (·.set f value)
          else
            match given, rest with
            | some value, rest => (parse flags rest).map (·.set f value)
            | none, value :: rest => (parse flags rest).map (·.set f value)
            | none, [] => .error (.ofText ("flag needs an argument: -" ++ name))

/-- Takes the flags of a command from its arguments. -/
def parseAll (flags : List Flag) (args : List Text) : Except Error Arguments :=
  let (front, back) := reorder flags false [] args
  parse flags (front ++ back)

end Flag

end Resumable
