import Resumable.Command.Settings
import Resumable.Command.Toml.Keys

/-!
# Project files

A project file is a TOML document with the settings in its table `transform`. Keys may be written in
capital letters, and other keys are of no interest.
-/

namespace Resumable

namespace ProjectFile

/-- What a setting is. -/
inductive Form
  | text | texts | number | truth
deriving DecidableEq, Repr

/-- The name of a form in messages. -/
def Form.name : Form → Text
  | text => "string"
  | texts => "[]string"
  | number => "int"
  | truth => "bool"

/-- The name of a form in messages that do not care for what a list holds. -/
def Form.shortName : Form → Text
  | texts => "slice"
  | form => form.name

/-- A setting. -/
inductive Setting
  | output | intrinsics | exclude | classpath | report | workers | verbose
deriving DecidableEq, Repr

namespace Setting

def all : List Setting := [output, intrinsics, exclude, classpath, report, workers, verbose]

/-- The key of a setting. -/
def key : Setting → Text
  | output => "output"
  | intrinsics => "intrinsics"
  | exclude => "exclude"
  | classpath => "classpath"
  | report => "report"
  | workers => "workers"
  | verbose => "verbose"

/-- The name of a setting in messages. -/
def title : Setting → Text
  | output => "main.TransformConfig.Output"
  | intrinsics => "main.TransformConfig.Intrinsics"
  | exclude => "main.TransformConfig.Exclude"
  | classpath => "main.TransformConfig.Classpath"
  | report => "main.TransformConfig.Report"
  | workers => "main.TransformConfig.Workers"
  | verbose => "main.TransformConfig.Verbose"

def form : Setting → Form
  | output | report => .text
  | intrinsics | exclude | classpath => .texts
  | workers => .number
  | verbose => .truth

end Setting

/-- Why a document says nothing about the settings. -/
inductive Fault
  | malformed
  | key (fault : Toml.KeyFault)
  /-- A value of another form than its place. -/
  | mismatch (found : Toml.Value) (place form short : Text)
  /-- One more element where there is no list. -/
  | element (place form : Text)
deriving Repr, Inhabited

/-- Says that something of some kind is in the wrong place. -/
def misplaced (kind place form : Text) : Text :=
  "cannot decode TOML " ++ kind ++ " into struct field " ++ place ++ " of type " ++ form

/-- The text of a fault. Those of the notation itself are not told apart, and a point in time breaks
the reader. -/
def Fault.message? : Fault → Option Text
  | .malformed => some ∅
  | .key fault => told fault.message
  | .element place form => told (misplaced "array table" place form)
  | .mismatch found place form short =>
    match found with
    | .text _ => told (misplaced "string" place form)
    | .number _ => told (misplaced "integer" place form)
    | .list _ => told (misplaced "array" place form)
    | .truth b => told ("cannot assign boolean to a " ++ (if b then "true" else "false"))
    | .fraction => told ("float cannot be assigned to " ++ short)
    | .table _ => told ("cannot store inline table in Go type " ++ short)
    | .time => none
where
  told (t : Text) : Option Text := some (": toml: " ++ t)

/-- A letter of ASCII in lower case. -/
def lower (b : UInt8) : UInt8 := if 65 ≤ b && b ≤ 90 then b + 32 else b

/-- Is a key meant by a word, whatever its case? -/
def means (word key : Text) : Bool := word = key || word.bytes.map lower = key.bytes

/-- The fault of a value at a setting. -/
def refuse {α : Type} (s : Setting) (found : Toml.Value) : Except Fault α :=
  .error (.mismatch found s.title s.form.name s.form.shortName)

/-- The texts of a list. -/
def textsOf (s : Setting) : List Toml.Value → Except Fault (List Text)
  | [] => .ok []
  | .text t :: rest => return t :: (← textsOf s rest)
  | v :: _ => .error (.mismatch v s.title s.form.name Form.text.shortName)

/-- The settings with one of them changed. -/
def assign (settings : Settings) (s : Setting) (v : Toml.Value) : Except Fault Settings :=
  match s, v with
  | .output, .text t => .ok { settings with output := t }
  | .report, .text t => .ok { settings with report := t }
  | .intrinsics, .list vs => return { settings with intrinsics := ← textsOf s vs }
  | .exclude, .list vs => return { settings with exclude := ← textsOf s vs }
  | .classpath, .list vs => return { settings with classpath := ← textsOf s vs }
  | .workers, .number n => .ok { settings with workers := n }
  | .verbose, .truth b => .ok { settings with verbose := b }
  | _, v => refuse s v

/-- The settings after a member of the table. -/
def assignKey (settings : Settings) (keys : List Text) (v : Toml.Value) : Except Fault Settings :=
  match keys with
  | [k] =>
    match Setting.all.find? fun s => means k s.key with
    | some s => assign settings s v
    | none => .ok settings
  | _ => .ok settings

/-- The table with the settings. -/
def tableKey : Text := "transform"

def tableTitle : Text := "main.Config.Transform"

def tableForm : Text := "main.TransformConfig"

/-- The settings after an assignment. The whole table may be given at once. -/
def assignFrom (settings : Settings) (keys : List Text) (v : Toml.Value) :
    Except Fault Settings :=
  match keys with
  | [] => .ok settings
  | top :: keys =>
    if !means top tableKey then .ok settings
    else if !keys.isEmpty then assignKey settings keys v
    else
      match v with
      | .table members =>
        members.foldlM (fun settings (keys, v) => assignKey settings keys v) settings
      | v => .error (.mismatch v tableTitle tableForm "struct")

/-- How far a document has been read. -/
structure Reading where
  settings : Settings := {}
  keys : Toml.Keys := {}
  /-- Is the last header of no interest? -/
  skipping : Bool := false
deriving Repr

/-- Reads one more line. Lines under a header of no interest are not looked at. -/
def Reading.line (r : Reading) (l : Toml.Line) : Except Fault Reading := do
  if r.skipping && l matches .assignment _ _ then return r
  let keys ← (r.keys.add l).mapError .key
  match l with
  | .assignment ks v =>
    return { r with keys, settings := ← assignFrom r.settings (keys.header ++ ks) v }
  | .table path => return { r with keys, skipping := !(known path) }
  | .element path =>
    if known path then .error (.element tableTitle tableForm)
    else return { r with keys, skipping := true }
where
  known : List Text → Bool
    | [top] => means top tableKey
    | _ => false

/-- The settings in a project file. -/
def parse (data : Bytes) : Except Fault Settings :=
  match Toml.parse data with
  | none => .error .malformed
  | some ls => return (← ls.foldlM Reading.line {}).settings

end ProjectFile

end Resumable
