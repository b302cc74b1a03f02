import Resumable.Text.Quoted

/-!
# Templates

A template is a text with directives in it. A directive starts with `%`, may go on with flags, a
width and a precision, and stops with a letter that tells how the next argument is shown. An
argument can be asked for by its number in brackets, and an asterisk takes the width or the
precision from an argument. A directive that makes no sense and arguments that nobody asked for are
shown in the result, so no template can fail.
-/

namespace Resumable

/-- What a template can be filled with. -/
inductive Argument
  | int (n : Int)
  | text (t : Text)
deriving DecidableEq, Repr

/-- How an argument is to be shown. -/
structure Style where
  /-- In the other form of the letter, `#`. -/
  sharp : Bool := false
  /-- Filled up with zeros instead of blanks, `0`. -/
  zero : Bool := false
  /-- With a sign for positive numbers, or in ASCII, `+`. -/
  plus : Bool := false
  /-- Filled up on the right, `-`. -/
  minus : Bool := false
  /-- With a blank in place of the sign, or between bytes, ` `. -/
  space : Bool := false
  /-- The way it is written in a program. -/
  literal : Bool := false
  width : Option Nat := none
  precision : Option Nat := none
deriving DecidableEq, Repr

namespace Style

/-- What fills up the width. Zeros are only put on the left. -/
def filling (s : Style) (count : Nat) : Text :=
  ⟨List.replicate count (if s.zero && !s.minus then 48 else 32)⟩

/-- Fills a text up to the width, in characters. -/
def fit (s : Style) (t : Text) : Text :=
  let missing := s.filling (s.width.getD 0 - t.runes.length)
  if s.minus then t ++ missing else missing ++ t

/-- The style without zeros. -/
def blank (s : Style) : Style := { s with zero := false }

/-- The first characters of a text, as many as the precision says. -/
def cut (s : Style) (t : Text) : Text :=
  match s.precision with
  | none => t
  | some n => Text.concat ((t.runes.take n).map fun
      | .char c => Text.ofChar c
      | .stray b => ⟨[b]⟩)

/-- The style for the letters that show an argument in its usual form. -/
def usual (s : Style) : Style := { s with literal := s.sharp, sharp := false, plus := false }

end Style

/-! ### Numbers -/

namespace Template

/-- A digit below sixteen. -/
def digit (upper : Bool) (n : Nat) : UInt8 :=
  if upper && 10 ≤ n then Text.hexDigit n - 32 else Text.hexDigit n

/-- The digits of a number, at least `least` of them. -/
def digits (upper : Bool) (base least n : Nat) : Bytes :=
  let ds := (Nat.toDigits base n).map fun c =>
    digit upper ((Text.hexValue c).getD 0)
  List.replicate (least - ds.length) 48 ++ ds

/-- What announces the base of a number. -/
def announcement (upper : Bool) (base : Nat) (ds : Bytes) : Text :=
  match base with
  | 2 => "0b"
  | 8 => if ds.head? = some 48 then ∅ else "0"
  | 16 => if upper then "0X" else "0x"
  | _ => ∅

/-- The sign of a number. -/
def sign (s : Style) (n : Int) : Text :=
  if n < 0 then "-" else if s.plus then "+" else if s.space then " " else ∅

/-- A number in a base, after a mark of its own. Zeros that fill up the width count as digits, so
the sign comes first. -/
def integer (s : Style) (base : Nat) (n : Int) (upper : Bool) (mark : Text) : Text :=
  if s.precision = some 0 && n = 0 then s.blank.filling (s.width.getD 0)
  else
    let start := sign s n
    let least := s.precision.getD (if s.zero && !s.minus then s.width.getD 0 - start.size else 0)
    let ds := digits upper base least n.natAbs
    s.blank.fit (start ++ mark ++ (if s.sharp then announcement upper base ds else ∅) ++ ⟨ds⟩)

/-- The character with a code; the replacement character if there is none. -/
def charOf (n : Int) : Char :=
  if 0 ≤ n && n.toNat.isValidChar then Char.ofNat n.toNat else Char.ofNat 0xFFFD

/-- A number as a code of a character, and the character itself in the other form if it can be
shown. -/
def code (s : Style) (n : Int) : Text :=
  let u : Nat := (n % Int.pow 2 64).toNat
  let shown :=
    if s.sharp && u ≤ 0x10FFFF && Category.isPrintable (charOf u) && u.isValidChar then
      " '" ++ Text.ofChar (charOf u) ++ "'"
    else ∅
  s.blank.fit ("U+" ++ ⟨digits true 16 (max 4 (s.precision.getD 4)) u⟩ ++ shown)

/-! ### Texts -/

/-- The bytes of a text, as many as the precision says, in hexadecimal. -/
def hex (s : Style) (upper : Bool) (t : Text) : Text :=
  let bytes := t.bytes.take (s.precision.getD t.size)
  let pairs : List Text := bytes.map fun b =>
    ⟨[digit upper (b.toNat / 16), digit upper (b.toNat % 16)]⟩
  let start : Text := if !s.sharp then ∅ else if upper then "0X" else "0x"
  if bytes.isEmpty then s.filling (s.width.getD 0)
  else if s.space then s.fit (Text.join " " (pairs.map (start ++ ·)))
  else s.fit (start ++ Text.concat pairs)

/-- A text in quotes. -/
def quotation (s : Style) (t : Text) : Text :=
  let t := s.cut t
  if s.sharp && t.isRaw then s.fit ("\x60" ++ t ++ "\x60")
  else if s.plus then s.fit t.quotedAscii
  else s.fit t.quoted

end Template

/-! ### Arguments -/

namespace Argument

open Template

/-- The name of the type of an argument. -/
def typeName : Argument → Text
  | int _ => "int64"
  | text _ => "string"

/-- An argument in its usual form. -/
def usual (s : Style) : Argument → Text
  | int n => integer s 10 n false ∅
  | text t => if s.literal then quotation s t else s.fit (s.cut t)

/-- An argument with the name of its type. -/
def described (s : Style) (a : Argument) : Text := a.typeName ++ "=" ++ a.usual s

/-- A number under a letter that fits numbers. -/
def intUnder (s : Style) (n : Int) (letter : Char) : Option Text :=
  match letter with
  | 'v' | 'd' => some (integer s 10 n false ∅)
  | 'b' => some (integer s 2 n false ∅)
  | 'o' => some (integer s 8 n false ∅)
  | 'O' => some (integer s 8 n false "0o")
  | 'x' => some (integer s 16 n false ∅)
  | 'X' => some (integer s 16 n true ∅)
  | 'c' => some (s.fit (Text.ofChar (charOf n)))
  | 'q' =>
    some (s.fit (if s.plus then Text.quotedCharAscii (charOf n) else Text.quotedChar (charOf n)))
  | 'U' => some (code s n)
  | _ => none

/-- A text under a letter that fits texts. -/
def textUnder (s : Style) (t : Text) (letter : Char) : Option Text :=
  match letter with
  | 'v' => some ((text t).usual s)
  | 's' => some (s.fit (s.cut t))
  | 'x' => some (hex s false t)
  | 'X' => some (hex s true t)
  | 'q' => some (quotation s t)
  | _ => none

/-- An argument under a letter. A letter that does not fit is shown with the argument. -/
def under (s : Style) (letter : Char) (a : Argument) : Text :=
  let s := if letter = 'v' || letter = 'w' then s.usual else s
  let shown :=
    if letter = 'T' then some (s.fit (s.cut a.typeName))
    else
      match a with
      | int n => intUnder s n letter
      | text t => textUnder s t letter
  shown.getD ("%!" ++ Text.ofChar letter ++ "(" ++ a.described s ++ ")")

end Argument

/-! ### Directives -/

namespace Template

/-- How far a template has been read. -/
structure Reading where
  /-- What is left of the template. -/
  rest : Bytes
  /-- The number of the next argument, from zero. -/
  next : Nat := 0
  /-- Were all arguments of this directive asked for in a sensible way? -/
  sensible : Bool := true
  /-- Was an argument asked for by its number? -/
  numbered : Bool := false
  /-- Is a number in brackets what was read last? -/
  afterNumber : Bool := false
deriving Repr

/-- The greatest width and precision that can be asked for. -/
def widest : Nat := 1000000

/-- Digits at the front, after digits with the value `n`. A number that gets too large takes all
that is left. -/
def number : (n : Option Nat) → Bytes → Option Nat × Bytes
  | n, [] => (n, [])
  | n, b :: rest =>
    if 48 ≤ b && b ≤ 57 then
      if widest < n.getD 0 then (none, [])
      else number (some (n.getD 0 * 10 + (b.toNat - 48))) rest
    else (n, b :: rest)

/-- A number in brackets, if it is one, and what follows it. -/
def bracketed (bs : Bytes) : Option Nat × Bytes :=
  if bs.length < 2 || !bs.contains 93 then (none, bs)
  else
    let inside := bs.takeWhile (· ≠ 93)
    let rest := (bs.dropWhile (· ≠ 93)).drop 1
    match number none inside with
    | (some n, []) => (some n, rest)
    | _ => (none, rest)

/-- Reads a number in brackets, if there is one, and goes to the argument with that number. -/
def argumentNumber (count : Nat) : StateM Reading Unit := modify fun r =>
  match r.rest with
  | 91 :: inside =>
    let (n, rest) := bracketed inside
    let r := { r with rest, numbered := true, afterNumber := n.isSome }
    match n with
    | some n =>
      if 0 < n && n ≤ count then { r with next := n - 1 } else { r with sensible := false }
    | none => { r with sensible := false }
  | _ => { r with afterNumber := false }

/-- Reads the flags. -/
def flags (s : Style) : Bytes → Style × Bytes
  | 35 :: rest => flags { s with sharp := true } rest
  | 48 :: rest => flags { s with zero := true } rest
  | 43 :: rest => flags { s with plus := true } rest
  | 45 :: rest => flags { s with minus := true } rest
  | 32 :: rest => flags { s with space := true } rest
  | rest => (s, rest)

/-- The number in the next argument, if it is one that can be a width. -/
def fromArgument (args : List Argument) : StateM Reading (Option Int) := modifyGet fun r =>
  match args[r.next]? with
  | none => (none, r)
  | some (Argument.text _) => (none, { r with next := r.next + 1 })
  | some (Argument.int n) =>
    (if n.natAbs ≤ widest then some n else none, { r with next := r.next + 1 })

/-- Does an asterisk come next? It is read if so. -/
def asterisk : StateM Reading Bool := modifyGet fun r =>
  match r.rest with
  | 42 :: rest => (true, { r with rest, afterNumber := false })
  | _ => (false, r)

/-- Reads digits. -/
def readNumber : StateM Reading (Option Nat) := modifyGet fun r =>
  let (n, rest) := number none r.rest
  (n, { r with rest })

/-- Reads the width. The first part of the answer is a complaint. -/
def readWidth (args : List Argument) (s : Style) : StateM Reading (Text × Style) := do
  if ← asterisk then
    match ← fromArgument args with
    | none => return ("%!(BADWIDTH)", s)
    | some n =>
      if n < 0 then return (∅, { s with width := some n.natAbs, minus := true, zero := false })
      else return (∅, { s with width := some n.natAbs })
  else
    let n ← readNumber
    modify fun r => { r with sensible := r.sensible && !(r.afterNumber && n.isSome) }
    return (∅, { s with width := n })

/-- Reads the precision, if there is one. A point at the very end is no precision but a letter. The
first part of the answer is a complaint. -/
def readPrecision (args : List Argument) (s : Style) : StateM Reading (Text × Style) := do
  match (← get).rest with
  | 46 :: b :: rest =>
    modify fun r => { r with rest := b :: rest, sensible := r.sensible && !r.afterNumber }
    argumentNumber args.length
    if ← asterisk then
      match ← fromArgument args with
      | none => return ("%!(BADPREC)", s)
      | some n =>
        if n < 0 then return ("%!(BADPREC)", s)
        else return (∅, { s with precision := some n.natAbs })
    else
      let n ← readNumber
      return (∅, { s with precision := some (n.getD 0) })
  | _ => return (∅, s)

/-- Reads the letter. A stray byte counts as the replacement character. -/
def readLetter : StateM Reading (Option Char) := modifyGet fun r =>
  match Text.frontChar r.rest with
  | some (c, width) => (some c, { r with rest := r.rest.drop width })
  | none =>
    if r.rest.isEmpty then (none, r)
    else (some (Char.ofNat 0xFFFD), { r with rest := r.rest.drop 1 })

/-- What a directive becomes once its letter is known. -/
def shown (args : List Argument) (s : Style) (letter : Char) : StateM Reading Text := do
  let r ← get
  let complaint (why : Text) : Text := "%!" ++ Text.ofChar letter ++ why
  if letter = '%' then return "%"
  else if !r.sensible then return complaint "(BADINDEX)"
  else
    match args[r.next]? with
    | none => return complaint "(MISSING)"
    | some a =>
      set { r with next := r.next + 1 }
      return a.under s letter

/-- Reads a directive after its first byte and gives what it becomes. -/
def directive (args : List Argument) : StateM Reading Text := do
  let s ← modifyGet fun r =>
    let (s, rest) := flags {} r.rest
    (s, { r with rest, sensible := true })
  argumentNumber args.length
  let (badWidth, s) ← readWidth args s
  let (badPrecision, s) ← readPrecision args s
  if !(← get).afterNumber then argumentNumber args.length
  match ← readLetter with
  | none => return badWidth ++ badPrecision ++ "%!(NOVERB)"
  | some letter => return badWidth ++ badPrecision ++ (← shown args s letter)

/-- Reads a template to its end. Each round takes a byte at least. -/
def fillFrom (args : List Argument) : (most : Nat) → Reading → Text
  | 0, _ => ∅
  | most + 1, r =>
    match r.rest with
    | [] =>
      let extra := args.drop r.next
      if r.numbered || extra.isEmpty then ∅
      else "%!(EXTRA " ++ Text.join ", " (extra.map (Argument.described {})) ++ ")"
    | 37 :: rest =>
      let (t, r) := (directive args).run { r with rest }
      t ++ fillFrom args most r
    | b :: rest => ⟨[b]⟩ ++ fillFrom args most { r with rest }

end Template

/-- Fills the template `t`. -/
def Text.fill (t : Text) (args : List Argument) : Text :=
  Template.fillFrom args (t.size + 1) { rest := t.bytes }

end Resumable
