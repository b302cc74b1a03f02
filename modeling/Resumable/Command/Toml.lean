import Resumable.Text.Numeral

/-!
# TOML

A document in TOML has lines `key = value` under headers in brackets that name a table, and comments
after `#`. Reading it gives these lines in order; what they mean together is not decided here.
Numbers with a fraction and points in time are read over: nobody asks for them.
-/

namespace Resumable

namespace Toml

/-- A value. -/
inductive Value
  | text (t : Text)
  | number (n : Int)
  | truth (b : Bool)
  /-- A number with a fraction. -/
  | fraction
  /-- A point in time. -/
  | time
  | list (vs : List Value)
  | table (members : List (List Text × Value))
deriving Repr, Inhabited

/-- A line that says something. -/
inductive Line
  /-- The header of a table. -/
  | table (keys : List Text)
  /-- The header of one more table in a list of tables. -/
  | element (keys : List Text)
  | assignment (keys : List Text) (value : Value)
deriving Repr, Inhabited

/-! ### Between values -/

/-- Does a character only separate others on a line? -/
def isBlank (c : Char) : Bool := c = ' ' || c = '\t'

/-- Does a character end a line? -/
def isBreak (c : Char) : Bool := c = '\n' || c = '\r'

/-- What follows blanks. -/
def skipBlanks (cs : List Char) : List Char := cs.dropWhile isBlank

/-- What follows blanks and line breaks. -/
def skipSpace (cs : List Char) : List Char := cs.dropWhile fun c => isBlank c || isBreak c

/-- What follows blanks, line breaks and comments. Every round drops a character at least. -/
def skipAll : (most : Nat) → List Char → List Char
  | 0, cs => cs
  | most + 1, cs =>
    match cs with
    | '#' :: rest => skipAll most (rest.dropWhile fun c => !isBreak c)
    | c :: rest => if isBlank c || isBreak c then skipAll most rest else cs
    | [] => []

/-! ### Strings -/

/-- The character whose code is given by `count` hexadecimal digits, and what follows them. -/
def coded (count : Nat) (cs : List Char) : Option (Char × List Char) := do
  if cs.length < count then none
  else
    let n ← Text.digitsValue 16 Text.hexValue (cs.take count)
    if n.isValidChar then some (Char.ofNat n, cs.drop count) else none

/-- The character that an escape denotes, and what follows it. -/
def escaped : List Char → Option (Char × List Char)
  | 'b' :: rest => some (Char.ofNat 8, rest)
  | 't' :: rest => some ('\t', rest)
  | 'n' :: rest => some ('\n', rest)
  | 'f' :: rest => some (Char.ofNat 12, rest)
  | 'r' :: rest => some ('\r', rest)
  | 'e' :: rest => some (Char.ofNat 27, rest)
  | '"' :: rest => some ('"', rest)
  | '\\' :: rest => some ('\\', rest)
  | 'u' :: rest => coded 4 rest
  | 'U' :: rest => coded 8 rest
  | _ => none

/-- The characters of a string on one line up to its quote, and what follows it. Every round takes a
character at least. -/
def line (quote : Char) : (most : Nat) → List Char → Option (List Char × List Char)
  | 0, _ => none
  | most + 1, cs =>
    match cs with
    | [] => none
    | c :: rest =>
      if c = quote then some ([], rest)
      else if c = '\n' then none
      else if c = '\\' && quote = '"' then do
        let (c, rest) ← escaped rest
        let (cs, rest) ← line quote most rest
        return (c :: cs, rest)
      else do
        let (cs, rest) ← line quote most rest
        return (c :: cs, rest)

/-- Does a line end here, but for blanks? -/
def endsLine (cs : List Char) : Bool :=
  match skipBlanks cs with
  | '\n' :: _ | '\r' :: '\n' :: _ => true
  | _ => false

/-- The characters of a string on several lines up to its three quotes, and what follows them. Up to
two more quotes belong to the string. A backslash at the end of a line joins it with the next. -/
def paragraph (quote : Char) : (most : Nat) → List Char → Option (List Char × List Char)
  | 0, _ => none
  | most + 1, cs =>
    match cs with
    | [] => none
    | c :: rest =>
      if c = quote && rest.take 2 = [quote, quote] then
        let more := (rest.drop 2).take 2 |>.takeWhile (· = quote)
        some (more, rest.drop (2 + more.length))
      else if c = '\\' && quote = '"' then
        if endsLine rest then paragraph quote most (skipSpace rest)
        else do
          let (c, rest) ← escaped rest
          let (cs, rest) ← paragraph quote most rest
          return (c :: cs, rest)
      else do
        let (cs, rest) ← paragraph quote most rest
        return (c :: cs, rest)

/-- What follows a line break, if one comes first. -/
def skipBreak : List Char → List Char
  | '\n' :: rest | '\r' :: '\n' :: rest => rest
  | cs => cs

/-- A string after its first quote. -/
def string (quote : Char) (cs : List Char) : Option (Text × List Char) := do
  let (t, rest) ←
    if cs.take 2 = [quote, quote] then
      let inside := skipBreak (cs.drop 2)
      paragraph quote (inside.length + 1) inside
    else line quote (cs.length + 1) cs
  return (Text.ofChars t, rest)

/-! ### Keys -/

/-- Does a character belong to a key without quotes? -/
def isBare (c : Char) : Bool := c.isAlphanum || c = '_' || c = '-'

/-- One key. -/
def key : List Char → Option (Text × List Char)
  | '"' :: rest => string '"' rest
  | '\'' :: rest => string '\'' rest
  | cs =>
    let name := cs.takeWhile isBare
    if name.isEmpty then none else some (Text.ofChars name, cs.dropWhile isBare)

/-- Keys with dots between them. -/
def path : (most : Nat) → List Char → Option (List Text × List Char)
  | 0, _ => none
  | most + 1, cs => do
    let (k, rest) ← key (skipBlanks cs)
    match skipBlanks rest with
    | '.' :: rest =>
      let (ks, rest) ← path most rest
      return (k :: ks, rest)
    | rest => return ([k], rest)

/-! ### Values -/

/-- Does a character belong to a word? -/
def isWord (c : Char) : Bool := isBare c || c = '+' || c = '.' || c = ':'

/-- Does a word start like a point in time, with a year or an hour? -/
def isTime (w : List Char) : Bool :=
  (w.take 4).all Char.isDigit && w[4]? = some '-' || (w.take 2).all Char.isDigit && w[2]? = some ':'

/-- A value without quotes and brackets. -/
def word (w : List Char) : Option Value :=
  if w.isEmpty then none
  else if w = ['t', 'r', 'u', 'e'] then some (.truth true)
  else if w = ['f', 'a', 'l', 's', 'e'] then some (.truth false)
  else if isTime w then some .time
  else
    match Numeral.int 64 (Text.ofChars (w.filter (· ≠ '_'))) with
    | .ok n => some (.number n)
    | .error _ => some .fraction

/-- A word and what follows it. The time of a day may follow its date after a blank. -/
def words (cs : List Char) : List Char × List Char :=
  let w := cs.takeWhile isWord
  let rest := cs.dropWhile isWord
  match rest with
  | ' ' :: c :: more =>
    if w.length = 10 && isTime w && c.isDigit then (w, (c :: more).dropWhile isWord) else (w, rest)
  | _ => (w, rest)

mutual

/-- A value. -/
def value : (most : Nat) → List Char → Option (Value × List Char)
  | 0, _ => none
  | most + 1, cs =>
    match cs with
    | '"' :: rest => (string '"' rest).map fun (t, rest) => (.text t, rest)
    | '\'' :: rest => (string '\'' rest).map fun (t, rest) => (.text t, rest)
    | '[' :: rest => (list most rest).map fun (vs, rest) => (.list vs, rest)
    | '\x7b' :: rest => (members most rest).map fun (ms, rest) => (.table ms, rest)
    | cs =>
      let (w, rest) := words cs
      (word w).map fun v => (v, rest)

/-- The values of a list after its opening bracket. -/
def list : (most : Nat) → List Char → Option (List Value × List Char)
  | 0, _ => none
  | most + 1, cs =>
    match skipAll cs.length cs with
    | ']' :: rest => some ([], rest)
    | cs => do
      let (v, rest) ← value most cs
      match skipAll rest.length rest with
      | ',' :: rest =>
        let (vs, rest) ← list most rest
        return (v :: vs, rest)
      | ']' :: rest => return ([v], rest)
      | _ => none

/-- The members of a table on one line after its opening brace. -/
def members : (most : Nat) → List Char → Option (List (List Text × Value) × List Char)
  | 0, _ => none
  | most + 1, cs =>
    match skipBlanks cs with
    | '\x7d' :: rest => some ([], rest)
    | cs => do
      let (ks, rest) ← path (cs.length + 1) cs
      match rest with
      | '=' :: rest =>
        let (v, rest) ← value most (skipBlanks rest)
        match skipBlanks rest with
        | ',' :: rest =>
          let (ms, rest) ← members most rest
          return ((ks, v) :: ms, rest)
        | '\x7d' :: rest => return ([(ks, v)], rest)
        | _ => none
      | _ => none

end

/-! ### Documents -/

/-- Does nothing but a comment come before the end of the line? -/
def isDone (cs : List Char) : Bool :=
  match skipBlanks cs with
  | [] | '\n' :: _ | '\r' :: '\n' :: _ | '#' :: _ => true
  | _ => false

/-- The lines of a document, in order. Every round takes a character at least. -/
def lines (most : Nat) (cs : List Char) : Option (List Line) :=
  match most with
  | 0 => some []
  | most + 1 =>
    match skipAll cs.length cs with
    | [] => some []
    | '[' :: rest => do
      let element := rest.head? = some '['
      let (ks, rest) ← path (rest.length + 1) (if element then rest.drop 1 else rest)
      let closing := if element then [']', ']'] else [']']
      let after := rest.drop closing.length
      if rest.take closing.length = closing && isDone after then
        return (if element then .element ks else .table ks) :: (← lines most after)
      else none
    | cs => do
      let (ks, rest) ← path (cs.length + 1) cs
      match rest with
      | '=' :: rest =>
        let (v, rest) ← value (rest.length + 1) (skipBlanks rest)
        if isDone rest then return .assignment ks v :: (← lines most rest) else none
      | _ => none

/-- Reads a document. -/
def parse (data : Bytes) : Option (List Line) :=
  let cs := (Text.mk data).toChars
  lines (cs.length + 1) cs

end Toml

end Resumable
