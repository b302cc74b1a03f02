import Resumable.Text.Quoted
import Resumable.Text.Category.Letter
import Resumable.Text.Category.Digit
import Resumable.Text.Category.Space

/-!
# Tokens of assembly text

Assembly text is made of parentheses, identifiers, string literals and numbers. White space and
comments, from `;;` to the end of the line, stand between tokens. A token carries its line.
-/

namespace Resumable.Assembly

/-- The sorts of tokens. -/
inductive TokenKind
  | lparen | rparen | ident | string | number
deriving DecidableEq, Repr

/-- How messages name a sort of tokens. -/
def TokenKind.name : TokenKind → Text
  | lparen => "'('"
  | rparen => "')'"
  | ident => "identifier"
  | string => "string"
  | number => "number"

/-- A token. A string literal has the text that it denotes. -/
structure Token where
  kind : TokenKind
  text : Text
  line : Nat
deriving DecidableEq, Repr

/-- Why text is no sequence of tokens. -/
inductive TokenFault
  | newlineInLiteral (line : Nat)
  | unterminated (line : Nat)
  | invalidLiteral (line : Nat)
  | unexpectedChar (line : Nat) (c : Char)
deriving DecidableEq, Repr

/-- The text of a fault. -/
def TokenFault.message : TokenFault → Text
  | .newlineInLiteral n => line n ++ "newline in string literal"
  | .unterminated n => line n ++ "unterminated string literal"
  | .invalidLiteral n => line n ++ "invalid syntax"
  | .unexpectedChar n c => line n ++ "unexpected character " ++ Text.quotedChar c
where
  line (n : Nat) : Text := "line " ++ Text.ofNat n ++ ": "

/-- May `c` stand in an identifier? -/
def isIdentChar (c : Char) : Bool :=
  Category.isLetter c || Category.isDigit c || c ∈ ['_', '.', '$', '-', '/', '<', '>']

/-- Does `c` start a number? -/
def startsNumber (c : Char) : Bool := c = '-' || c = '+' || Category.isDigit c

/-- May `c` stand in a number, after its first character? -/
def isNumberChar (c : Char) : Bool :=
  Category.isDigit c || c = 'x' || ('a' ≤ c && c ≤ 'f') || ('A' ≤ c && c ≤ 'F')

/-- The characters of a literal up to the quote that closes it, and what follows that quote. A
character after a backslash never closes the literal. -/
def literal (line : Nat) : List Char → Except TokenFault (List Char × List Char)
  | [] => .error (.unterminated line)
  | '"' :: rest => .ok ([], rest)
  | '\n' :: _ => .error (.newlineInLiteral line)
  | '\\' :: '\n' :: _ => .error (.newlineInLiteral line)
  | '\\' :: c :: rest => do
    let (inside, rest) ← literal line rest
    return ('\\' :: c :: inside, rest)
  | c :: rest => do
    let (inside, rest) ← literal line rest
    return (c :: inside, rest)

/-- What follows a literal is shorter than the literal with it. -/
theorem literal_length {line : Nat} {cs inside rest : List Char}
    (h : literal line cs = .ok (inside, rest)) : rest.length < cs.length := by
  fun_induction literal line cs generalizing inside rest with
  | case1 => cases h
  | case2 => cases h; simp
  | case3 => cases h
  | case4 => cases h
  | case5 c tail _ ih =>
    cases hl : literal line tail with
    | error e => rw [hl] at h; cases h
    | ok p =>
      rw [hl] at h
      cases h
      have := ih hl
      simp only [List.length_cons]
      omega
  | case6 c tail _ _ _ _ ih =>
    cases hl : literal line tail with
    | error e => rw [hl] at h; cases h
    | ok p =>
      rw [hl] at h
      cases h
      have := ih hl
      simp only [List.length_cons]
      omega

theorem length_dropWhile_le {α : Type} (p : α → Bool) (l : List α) :
    (l.dropWhile p).length ≤ l.length :=
  (List.dropWhile_sublist p).length_le

/-- The tokens of text that starts on a line. -/
def tokensFrom (line : Nat) (cs : List Char) : Except TokenFault (List Token) :=
  match cs with
  | [] => .ok []
  | c :: rest =>
    if c = '\n' then tokensFrom (line + 1) rest
    else if Category.isSpace c then tokensFrom line rest
    else if c = ';' && rest.head? = some ';' then tokensFrom line (rest.dropWhile (· ≠ '\n'))
    else if c = '(' then return ⟨.lparen, "(", line⟩ :: (← tokensFrom line rest)
    else if c = ')' then return ⟨.rparen, ")", line⟩ :: (← tokensFrom line rest)
    else if c = '"' then
      match _h : literal line rest with
      | .error fault => .error fault
      | .ok (inside, after) =>
        match Text.unquoteInside inside with
        | none => .error (.invalidLiteral line)
        | some t => return ⟨.string, t, line⟩ :: (← tokensFrom line after)
    else if startsNumber c then
      let token := ⟨.number, Text.ofChars (c :: rest.takeWhile isNumberChar), line⟩
      return token :: (← tokensFrom line (rest.dropWhile isNumberChar))
    else if isIdentChar c then
      let token := ⟨.ident, Text.ofChars (c :: rest.takeWhile isIdentChar), line⟩
      return token :: (← tokensFrom line (rest.dropWhile isIdentChar))
    else .error (.unexpectedChar line c)
termination_by cs.length
decreasing_by
  all_goals simp only [List.length_cons]
  all_goals first
    | omega
    | exact Nat.lt_succ_of_lt (literal_length _h)
    | exact Nat.lt_succ_of_le (length_dropWhile_le _ _)

/-- The tokens of assembly text. A byte that belongs to no character reads as U+FFFD. -/
def tokenize (source : Text) : Except TokenFault (List Token) := tokensFrom 1 source.toChars

end Resumable.Assembly
