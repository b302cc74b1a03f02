import Mathlib.Data.List.TakeWhile
import Mathlib.Tactic.IntervalCases
import Resumable.Assembly.Token
import Resumable.Proofs.Attempt
import Resumable.Proofs.Text.Numeral
import Resumable.Proofs.Text.Quoted

/-!
# Words of assembly text

A word is a token without its line. `Renders rest ws t` says that the text `t` is written with the
words `ws`, blanks and comments up to `rest`; `words_renders` says that the tokenizer finds these
words. Conversely every identifier that it finds is one when it stands alone (`isIdent_of_mem`).
-/

namespace Resumable.Assembly

open List

variable {c : Char} {cs : List Char} {t : Text}

/-- A token without its line. -/
structure Word where
  kind : TokenKind
  text : Text
deriving DecidableEq

def Token.word (t : Token) : Word := ⟨t.kind, t.text⟩

namespace Word

def opening : Word := ⟨.lparen, "("⟩
def closing : Word := ⟨.rparen, ")"⟩
def ident (t : Text) : Word := ⟨.ident, t⟩
def string (t : Text) : Word := ⟨.string, t⟩
def number (t : Text) : Word := ⟨.number, t⟩

end Word

/-- The words of text that starts on a line. -/
def wordsFrom (line : Nat) (cs : List Char) : Except TokenFault (List Word) :=
  (tokensFrom line cs).map (List.map Token.word)

/-- Is a text, when it stands alone, read as one identifier? -/
def IsIdent (t : Text) : Prop := tokenize t = .ok [⟨.ident, t, 1⟩]

instance (t : Text) : Decidable (IsIdent t) := inferInstanceAs (Decidable (_ = _))

/-- Are these the characters of an identifier? -/
def isIdentChars : List Char → Bool
  | [] => false
  | c :: cs => isIdentChar c && !startsNumber c && cs.all isIdentChar

/-! ### Characters -/

/-- White space stands in no identifier. -/
theorem isIdentChar_of_isSpace (h : Category.isSpace c) : isIdentChar c = false := by
  have hall : ∀ n ∈ [9, 10, 11, 12, 13, 0x20, 0x85, 0xA0, 0x1680, 0x2000, 0x2001, 0x2002, 0x2003,
      0x2004, 0x2005, 0x2006, 0x2007, 0x2008, 0x2009, 0x200A, 0x2028, 0x2029, 0x202F, 0x205F,
      0x3000], isIdentChar (Char.ofNat n) = false := by decide +kernel
  rw [← Char.ofNat_toNat c]
  refine hall c.toNat ?_
  simp only [Category.isSpace, Bool.or_eq_true, Bool.and_eq_true, decide_eq_true_eq,
    beq_iff_eq] at h
  simp only [mem_cons, not_mem_nil, or_false]
  omega

/-- The characters that end a word, or are words. -/
def marks : List Char := [' ', '\n', '(', ')', ';', '"']

theorem not_isIdentChar_of_mem_marks (h : c ∈ marks) :
    isIdentChar c = false ∧ isNumberChar c = false := by
  have hall : marks.all (fun c => !isIdentChar c && !isNumberChar c) = true := by decide +kernel
  simpa using all_eq_true.mp hall c h

/-- What a character of an identifier is not. -/
theorem ne_of_isIdentChar {c d : Char} (hc : isIdentChar c) (hd : d ∈ marks) : c ≠ d := by
  rintro rfl
  rw [(not_isIdentChar_of_mem_marks hd).1] at hc
  cases hc

theorem isSpace_of_isIdentChar (h : isIdentChar c) : Category.isSpace c = false := by
  by_contra hs
  rw [isIdentChar_of_isSpace (by simpa using hs)] at h
  cases h

/-- May a character stand right behind a word? -/
def IsDelimiter (c : Char) : Prop := c ∈ [' ', '\n', '(', ')']

theorem IsDelimiter.mem_marks (h : IsDelimiter c) : c ∈ marks := by
  simp only [IsDelimiter, marks, mem_cons, not_mem_nil, or_false] at h ⊢
  tauto

theorem isIdentChar_of_isDelimiter (h : IsDelimiter c) : isIdentChar c = false :=
  (not_isIdentChar_of_mem_marks h.mem_marks).1

theorem isNumberChar_of_isDelimiter (h : IsDelimiter c) : isNumberChar c = false :=
  (not_isIdentChar_of_mem_marks h.mem_marks).2

/-- A text that starts with a delimiter. -/
def Delimited (t : Text) : Prop := ∃ c t', t = Text.ofChar c ++ t' ∧ IsDelimiter c

theorem toChars_ofChar_append (c : Char) (t : Text) : (Text.ofChar c ++ t).toChars = c :: t.toChars := by
  rw [Text.toChars, Text.runes_ofChar_append]
  rfl

theorem toChars_ofChars_append (cs : List Char) (t : Text) :
    (Text.ofChars cs ++ t).toChars = cs ++ t.toChars := by
  rw [Text.toChars, Text.runes_ofChars_append, map_append, map_map]
  exact congrArg (· ++ _) (map_id cs)

/-- A run of characters of a kind ends at a delimiter. -/
theorem span_of_delimited {p : Char → Bool} (hp : ∀ c, IsDelimiter c → p c = false)
    (hcs : ∀ c ∈ cs, p c) (ht : Delimited t) :
    (cs ++ t.toChars).takeWhile p = cs ∧ (cs ++ t.toChars).dropWhile p = t.toChars := by
  obtain ⟨c, t', rfl, hc⟩ := ht
  rw [toChars_ofChar_append, takeWhile_append_of_pos hcs, dropWhile_append_of_pos hcs]
  simp [hp c hc]

/-! ### One word -/

section

variable {line : Nat} {cs : List Char}

theorem map_word_cons (t : Token) (x : Except TokenFault (List Token)) :
    (do return t :: (← x)).map (map Token.word) =
      (x.map (map Token.word)).map (t.word :: ·) := by
  cases x <;> rfl

theorem wordsFrom_newline : wordsFrom line ('\n' :: cs) = wordsFrom (line + 1) cs := by
  rw [wordsFrom, tokensFrom, if_pos rfl]
  rfl

theorem wordsFrom_blank : wordsFrom line (' ' :: cs) = wordsFrom line cs := by
  rw [wordsFrom, tokensFrom, if_neg (by decide), if_pos (by decide)]
  rfl

theorem wordsFrom_comment :
    wordsFrom line (';' :: ';' :: cs) = wordsFrom line (cs.dropWhile (· ≠ '\n')) := by
  rw [wordsFrom, tokensFrom, if_neg (by decide), if_neg (by decide), if_pos (by rfl)]
  rfl

theorem wordsFrom_opening :
    wordsFrom line ('(' :: cs) = (wordsFrom line cs).map (.opening :: ·) := by
  rw [wordsFrom, tokensFrom, if_neg (by decide), if_neg (by decide), if_neg (by simp), if_pos rfl]
  exact map_word_cons _ _

theorem wordsFrom_closing :
    wordsFrom line (')' :: cs) = (wordsFrom line cs).map (.closing :: ·) := by
  rw [wordsFrom, tokensFrom, if_neg (by decide), if_neg (by decide), if_neg (by simp),
    if_neg (by decide), if_pos rfl]
  exact map_word_cons _ _

/-- A character that is no sign starts a number or an identifier. -/
theorem tokensFrom_of_isIdentChar {c : Char} (hc : isIdentChar c) :
    tokensFrom line (c :: cs) =
      if startsNumber c then do
        return ⟨.number, .ofChars (c :: cs.takeWhile isNumberChar), line⟩ ::
          (← tokensFrom line (cs.dropWhile isNumberChar))
      else do
        return ⟨.ident, .ofChars (c :: cs.takeWhile isIdentChar), line⟩ ::
          (← tokensFrom line (cs.dropWhile isIdentChar)) := by
  have hne {d : Char} (hd : d ∈ marks) : c ≠ d := ne_of_isIdentChar hc hd
  rw [tokensFrom, if_neg (hne (by simp [marks])), if_neg (by rw [isSpace_of_isIdentChar hc]; decide),
    if_neg (by simp [hne (d := ';') (by simp [marks])]), if_neg (hne (by simp [marks])),
    if_neg (hne (by simp [marks])), if_neg (hne (by simp [marks])), if_pos hc]

theorem wordsFrom_of_isIdentChar {c : Char} (hc : isIdentChar c) :
    wordsFrom line (c :: cs) =
      if startsNumber c then
        (wordsFrom line (cs.dropWhile isNumberChar)).map
          (.number (.ofChars (c :: cs.takeWhile isNumberChar)) :: ·)
      else
        (wordsFrom line (cs.dropWhile isIdentChar)).map
          (.ident (.ofChars (c :: cs.takeWhile isIdentChar)) :: ·) := by
  rw [wordsFrom, tokensFrom_of_isIdentChar hc]
  split <;> exact map_word_cons _ _

end

/-! ### Identifiers -/

theorem wordsFrom_identChars {line : Nat} (h : isIdentChars cs) (ht : Delimited t) :
    wordsFrom line (cs ++ t.toChars) =
      (wordsFrom line t.toChars).map (.ident (.ofChars cs) :: ·) := by
  cases cs with
  | nil => cases h
  | cons c cs =>
    rw [isIdentChars, Bool.and_eq_true, Bool.and_eq_true, Bool.not_eq_true',
      all_eq_true] at h
    obtain ⟨⟨hc, hstart⟩, hcs⟩ := h
    obtain ⟨htake, hdrop⟩ := span_of_delimited (fun _ => isIdentChar_of_isDelimiter) hcs ht
    rw [cons_append, wordsFrom_of_isIdentChar hc, if_neg (by rw [hstart]; decide), htake, hdrop]

/-- An identifier that the tokenizer finds has the characters of one. -/
theorem isIdentChars_of_mem {line : Nat} {ts : List Token} (h : tokensFrom line cs = .ok ts) :
    ∀ t ∈ ts, t.kind = .ident → ∃ ds, t.text = Text.ofChars ds ∧ isIdentChars ds := by
  have hcons {t : Token} {x : Except TokenFault (List Token)} {ts : List Token}
      (hts : (do return t :: (← x)) = .ok ts)
      (ht : t.kind = .ident → ∃ ds, t.text = Text.ofChars ds ∧ isIdentChars ds)
      (hx : ∀ {ts}, x = .ok ts →
        ∀ t ∈ ts, t.kind = .ident → ∃ ds, t.text = Text.ofChars ds ∧ isIdentChars ds) :
      ∀ t ∈ ts, t.kind = .ident → ∃ ds, t.text = Text.ofChars ds ∧ isIdentChars ds := by
    obtain ⟨ts', hts', hts⟩ := bind_eq_ok.mp hts
    cases hts
    exact forall_mem_cons.mpr ⟨ht, hx hts'⟩
  fun_induction tokensFrom line cs generalizing ts
  case case1 =>
    cases h
    exact fun t ht => nomatch ht
  case case2 ih | case3 ih | case4 ih => exact ih h
  case case5 ih | case6 ih | case9 ih | case10 ih => exact hcons h (fun hk => nomatch hk) ih
  case case7 | case8 | case12 => cases h
  case case11 hstart hc _ ih =>
    refine hcons h (fun _ => ⟨_, rfl, ?_⟩) ih
    simp only [isIdentChars, hc, hstart, Bool.true_and, Bool.not_false, all_eq_true]
    exact fun d hd => mem_takeWhile_imp hd

/-- **An identifier is read as what it is.** -/
theorem isIdent_iff : IsIdent t ↔ ∃ cs, t = Text.ofChars cs ∧ isIdentChars cs := by
  constructor
  · exact fun h => isIdentChars_of_mem h _ (mem_singleton_self _) rfl
  · rintro ⟨cs, rfl, h⟩
    cases cs with
    | nil => cases h
    | cons c cs =>
      rw [isIdentChars, Bool.and_eq_true, Bool.and_eq_true, Bool.not_eq_true',
        all_eq_true] at h
      obtain ⟨⟨hc, hstart⟩, hcs⟩ := h
      rw [IsIdent, tokenize, Text.toChars_ofChars, tokensFrom_of_isIdentChar hc,
        if_neg (by rw [hstart]; decide), takeWhile_eq_self_iff.mpr hcs,
        dropWhile_eq_nil_iff.mpr hcs, tokensFrom]
      rfl

theorem isIdent_of_mem {source : Text} {ts : List Token} (h : tokenize source = .ok ts) :
    ∀ t ∈ ts, t.kind = .ident → IsIdent t.text :=
  fun t ht hk => isIdent_iff.mpr (isIdentChars_of_mem h t ht hk)

/-! ### Numbers and literals -/

theorem isNumberChar_of_isDigit (h : c.isDigit) :
    isNumberChar c ∧ isIdentChar c ∧ startsNumber c := by
  have hall : ∀ n ∈ range' 48 10, isNumberChar (Char.ofNat n) ∧ isIdentChar (Char.ofNat n) ∧
      startsNumber (Char.ofNat n) := by decide +kernel
  rw [← Char.ofNat_toNat c]
  refine hall c.toNat ?_
  simp only [Char.isDigit, Bool.and_eq_true, decide_eq_true_eq, ge_iff_le, UInt32.le_iff_toNat_le] at h
  exact mem_range'_1.mpr ⟨h.1, show c.toNat < 58 from Nat.lt_succ_of_le h.2⟩

/-- A number in decimal, which may have a sign. -/
def IsDecimal (t : Text) : Prop := ∃ c cs, t = Text.ofChars (c :: cs) ∧
  (c = '-' ∨ c.isDigit) ∧ ∀ d ∈ cs, d.isDigit

theorem wordsFrom_decimal {line : Nat} {w t : Text} (hw : IsDecimal w) (ht : Delimited t) :
    wordsFrom line (w ++ t).toChars = (wordsFrom line t.toChars).map (.number w :: ·) := by
  obtain ⟨c, cs, rfl, hc, hcs⟩ := hw
  have hnumber : ∀ d ∈ cs, isNumberChar d := fun d hd => (isNumberChar_of_isDigit (hcs d hd)).1
  have hc : isIdentChar c ∧ startsNumber c := by
    rcases hc with rfl | hc
    · exact ⟨by decide +kernel, by decide⟩
    · exact (isNumberChar_of_isDigit hc).2
  obtain ⟨htake, hdrop⟩ := span_of_delimited (fun _ => isNumberChar_of_isDelimiter) hnumber ht
  rw [toChars_ofChars_append, cons_append, wordsFrom_of_isIdentChar hc.1, if_pos hc.2, htake,
    hdrop]

theorem isDecimal_ofNat (n : Nat) : IsDecimal (Text.ofNat n) := by
  have hdigit : ∀ c ∈ Nat.toDigits 10 n, c.isDigit := fun c hc =>
    Nat.isDigit_of_mem_toDigits (by decide) (by decide) hc
  rw [Text.ofNat_eq_ofChars]
  cases hds : Nat.toDigits 10 n with
  | nil => exact absurd hds Nat.toDigits_ne_nil
  | cons c cs =>
    rw [hds, forall_mem_cons] at hdigit
    exact ⟨c, cs, rfl, .inr hdigit.1, hdigit.2⟩

theorem isDecimal_ofInt (n : Int) : IsDecimal (Text.ofInt n) := by
  cases n with
  | ofNat n => exact isDecimal_ofNat n
  | negSucc n =>
    refine ⟨'-', Nat.toDigits 10 (n + 1), ?_, .inl rfl, fun d hd =>
      Nat.isDigit_of_mem_toDigits (by decide) (by decide) hd⟩
    rw [Text.ofInt_negSucc, Text.ofChars_cons, Text.ofNat_eq_ofChars]
    rfl

theorem literal_inside (h : Text.Inside cs t) (line : Nat) (rest : List Char) :
    literal line (cs ++ '"' :: rest) = .ok (cs, rest) := by
  have hplain {c : Char} {cs inside tail : List Char} (hc : Text.IsPlain c)
      (h : literal line cs = .ok (inside, tail)) :
      literal line (c :: cs) = .ok (c :: inside, tail) := by
    rw [literal, h]
    · rfl
    · exact hc.1
    · exact hc.2.2
    · exact fun _ hb => absurd hb hc.2.1
    · exact fun _ _ hb => absurd hb hc.2.1
  have hmore {more cs inside tail : List Char} (hmore : ∀ d ∈ more, Text.IsPlain d)
      (h : literal line cs = .ok (inside, tail)) :
      literal line (more ++ cs) = .ok (more ++ inside, tail) := by
    induction more with
    | nil => exact h
    | cons d more ih =>
      rw [forall_mem_cons] at hmore
      exact hplain hmore.1 (ih hmore.2)
  induction h with
  | nil => rfl
  | plain hc _ ih => exact hplain hc ih
  | @escape c more cs _ _ hc hplainMore _ _ ih =>
    have hrest := hmore hplainMore ih
    rw [← append_assoc] at hrest
    rw [cons_append, cons_append, literal, hrest]
    · rfl
    · exact hc

theorem wordsFrom_quoted {line : Nat} (s t : Text) :
    wordsFrom line (s.quoted ++ t).toChars = (wordsFrom line t.toChars).map (.string s :: ·) := by
  obtain ⟨cs, hcs, hquoted⟩ := Text.exists_inside s
  have hliteral := literal_inside hcs line t.toChars
  rw [hquoted, toChars_ofChars_append, cons_append, append_assoc, singleton_append,
    wordsFrom, tokensFrom, if_neg (by decide), if_neg (by decide), if_neg (by simp),
    if_neg (by decide), if_neg (by decide), if_pos rfl]
  split
  next hfault =>
    rw [hliteral] at hfault
    cases hfault
  next inside after hok =>
    rw [hliteral] at hok
    cases hok
    rw [Text.unquoteInside_inside hcs]
    exact map_word_cons _ _

/-! ### Texts -/

/-- The text `t` is written with the words `ws`, blanks and comments, up to `rest`. -/
inductive Renders (rest : Text) : List Word → Text → Prop
  | done : Renders rest [] rest
  | blank {ws : List Word} {t : Text} (h : Renders rest ws t) : Renders rest ws (" " ++ t)
  | newline {ws : List Word} {t : Text} (h : Renders rest ws t) : Renders rest ws ("\n" ++ t)
  | comment {ws : List Word} {cs : List Char} {t : Text} (hcs : '\n' ∉ cs)
      (h : Renders rest ws ("\n" ++ t)) : Renders rest ws (";;" ++ (Text.ofChars cs ++ ("\n" ++ t)))
  | opening {ws : List Word} {t : Text} (h : Renders rest ws t) :
      Renders rest (.opening :: ws) ("(" ++ t)
  | closing {ws : List Word} {t : Text} (h : Renders rest ws t) :
      Renders rest (.closing :: ws) (")" ++ t)
  | ident {w : Text} {ws : List Word} {t : Text} (hw : IsIdent w) (ht : Delimited t)
      (h : Renders rest ws t) : Renders rest (.ident w :: ws) (w ++ t)
  | number {w : Text} {ws : List Word} {t : Text} (hw : IsDecimal w) (ht : Delimited t)
      (h : Renders rest ws t) : Renders rest (.number w :: ws) (w ++ t)
  | string {s : Text} {ws : List Word} {t : Text} (h : Renders rest ws t) :
      Renders rest (.string s :: ws) (s.quoted ++ t)

/-- **The tokenizer finds the words** that a text is written with. -/
theorem words_renders {rest t : Text} {ws : List Word} (h : Renders rest ws t) (line : Nat) :
    ∃ line', wordsFrom line t.toChars = (wordsFrom line' rest.toChars).map (ws ++ ·) := by
  have hblank (t : Text) : (" " ++ t).toChars = ' ' :: t.toChars := toChars_ofChar_append ' ' t
  have hnewline (t : Text) : ("\n" ++ t).toChars = '\n' :: t.toChars :=
    toChars_ofChar_append '\n' t
  have hopening (t : Text) : ("(" ++ t).toChars = '(' :: t.toChars := toChars_ofChar_append '(' t
  have hclosing (t : Text) : (")" ++ t).toChars = ')' :: t.toChars := toChars_ofChar_append ')' t
  have hmap {w : Word} {ws : List Word} {x : Except TokenFault (List Word)} :
      (x.map (ws ++ ·)).map (w :: ·) = x.map (w :: ws ++ ·) := by cases x <;> rfl
  induction h generalizing line with
  | done => exact ⟨line, by cases wordsFrom line rest.toChars <;> rfl⟩
  | @blank ws t h ih =>
    obtain ⟨line', hline⟩ := ih line
    exact ⟨line', by rw [hblank, wordsFrom_blank, hline]⟩
  | newline h ih =>
    obtain ⟨line', hline⟩ := ih (line + 1)
    exact ⟨line', by rw [hnewline, wordsFrom_newline, hline]⟩
  | @comment ws cs t hcs h ih =>
    obtain ⟨line', hline⟩ := ih line
    refine ⟨line', ?_⟩
    have hdrop : (cs ++ '\n' :: t.toChars).dropWhile (· ≠ '\n') = '\n' :: t.toChars := by
      rw [dropWhile_append_of_pos fun c hc => by simpa using ne_of_mem_of_not_mem hc hcs]
      rfl
    have hchars : (";;" ++ (Text.ofChars cs ++ ("\n" ++ t))).toChars =
        ';' :: ';' :: (cs ++ '\n' :: t.toChars) := by
      rw [show (";;" : Text) = Text.ofChars [';', ';'] from rfl, toChars_ofChars_append,
        toChars_ofChars_append, hnewline]
      rfl
    rw [hchars, wordsFrom_comment, hdrop, ← hnewline]
    exact hline
  | opening h ih =>
    obtain ⟨line', hline⟩ := ih line
    exact ⟨line', by rw [hopening, wordsFrom_opening, hline, hmap]⟩
  | closing h ih =>
    obtain ⟨line', hline⟩ := ih line
    exact ⟨line', by rw [hclosing, wordsFrom_closing, hline, hmap]⟩
  | @ident w ws t hw ht h ih =>
    obtain ⟨line', hline⟩ := ih line
    obtain ⟨cs, rfl, hcs⟩ := isIdent_iff.mp hw
    exact ⟨line', by rw [toChars_ofChars_append, wordsFrom_identChars hcs ht, hline, hmap]⟩
  | number hw ht h ih =>
    obtain ⟨line', hline⟩ := ih line
    exact ⟨line', by rw [wordsFrom_decimal hw ht, hline, hmap]⟩
  | string h ih =>
    obtain ⟨line', hline⟩ := ih line
    exact ⟨line', by rw [wordsFrom_quoted, hline, hmap]⟩

end Resumable.Assembly
