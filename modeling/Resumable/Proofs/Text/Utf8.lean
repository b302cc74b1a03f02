import Resumable.Text.Utf8

/-!
# Characters and their bytes

Reading characters undoes writing them: `toChars_ofChars` says so for sequences of characters, and
`bytes_runes` for every text, whose stray bytes stand for themselves.
-/

namespace Resumable

open List

namespace Text

/-! ### Texts as strings of bytes -/

theorem ext_bytes {a b : Text} (h : a.bytes = b.bytes) : a = b := congrArg Text.mk h

theorem append_assoc (a b c : Text) : a ++ b ++ c = a ++ (b ++ c) :=
  ext_bytes (List.append_assoc a.bytes b.bytes c.bytes)

@[simp] theorem empty_append (a : Text) : ∅ ++ a = a := rfl

@[simp] theorem append_empty (a : Text) : a ++ ∅ = a := ext_bytes (append_nil a.bytes)

@[simp] theorem concat_nil : concat [] = ∅ := rfl

@[simp] theorem concat_cons (t : Text) (ts : List Text) : concat (t :: ts) = t ++ concat ts := rfl

theorem concat_append (ss ts : List Text) : concat (ss ++ ts) = concat ss ++ concat ts := by
  induction ss with
  | nil => rfl
  | cons s ss ih => rw [cons_append, concat_cons, concat_cons, ih, append_assoc]

theorem bytes_ofChars (cs : List Char) :
    (ofChars cs).bytes = cs.flatMap String.utf8EncodeChar := by
  simp [ofChars, ofString, utf8Encode]

@[simp] theorem ofChars_nil : ofChars [] = ∅ := rfl

theorem ofChars_append (cs ds : List Char) : ofChars (cs ++ ds) = ofChars cs ++ ofChars ds :=
  ext_bytes (by simp only [bytes_append, bytes_ofChars, flatMap_append])

theorem ofChar_eq (c : Char) : ofChar c = ofChars [c] := by
  simp [ofChars, ofChar, ofString]

theorem ofChars_cons (c : Char) (cs : List Char) : ofChars (c :: cs) = ofChar c ++ ofChars cs := by
  rw [ofChar_eq, ← ofChars_append, singleton_append]

theorem ofString_eq (s : String) : ofString s = ofChars s.toList := by
  rw [ofChars, String.ofList_toList]

theorem ofString_append (s s' : String) : ofString (s ++ s') = ofString s ++ ofString s' := by
  rw [ofString_eq, String.toList_append, ofChars_append, ← ofString_eq, ← ofString_eq]

/-! ### One character -/

theorem toNat_charOfNat {n : Nat} (h : n.isValidChar) : (Char.ofNat n).toNat = n := by
  rw [Char.ofNat, dif_pos h]
  exact UInt32.toNat_ofNatLT ..

theorem toNat_char_lt (c : Char) : c.toNat < 0x110000 := by
  have h : c.toNat.isValidChar := c.valid
  rcases h with h | h <;> omega

theorem toNat_byteOfNat {n : Nat} (h : n < 256) : (UInt8.ofNat n).toNat = n :=
  UInt8.toNat_ofNat_of_lt' h

theorem scalar_eq_some {least n : Nat} {c : Char} :
    scalar least n = some c ↔ least ≤ n ∧ c.toNat = n := by
  unfold scalar
  split
  next h =>
    rw [Option.some.injEq]
    constructor
    · rintro rfl
      exact ⟨h.1, toNat_charOfNat h.2⟩
    · rintro ⟨-, rfl⟩
      exact Char.ofNat_toNat c
  next h =>
    refine iff_of_false (fun h => nomatch h) ?_
    rintro ⟨hle, rfl⟩
    exact h ⟨hle, c.valid⟩

theorem isContinuation_iff {b : UInt8} :
    isContinuation b = true ↔ 128 ≤ b.toNat ∧ b.toNat ≤ 191 := by
  simp only [isContinuation, Bool.and_eq_true, decide_eq_true_eq, UInt8.le_iff_toNat_le]
  rfl

/-- A character is read back from its bytes. -/
theorem frontChar_utf8EncodeChar (c : Char) (rest : Bytes) :
    frontChar (String.utf8EncodeChar c ++ rest) = some (c, (String.utf8EncodeChar c).length) := by
  have hc := toNat_char_lt c
  have hval : c.val.toNat = c.toNat := rfl
  have hmore (n : Nat) : isContinuation (UInt8.ofNat (n % 64 + 128)) = true :=
    isContinuation_iff.mpr (by rw [toNat_byteOfNat (by omega)]; omega)
  have hload (n : Nat) : payload (UInt8.ofNat (n % 64 + 128)) = n % 64 := by
    rw [payload, toNat_byteOfNat (by omega)]
    omega
  have hless {a : UInt8} {n : Nat} (h : a.toNat = n) : ∀ {m}, a < m ↔ n < m.toNat := by
    rw [← h]
    exact Iff.rfl
  have hscalar {least n : Nat} (h : least ≤ n) (hn : c.toNat = n) : scalar least n = some c :=
    scalar_eq_some.mpr ⟨h, hn⟩
  -- One case for each width. The first byte decides which branch is taken.
  simp only [String.utf8EncodeChar, hval]
  split
  next =>
    have hlead := toNat_byteOfNat (n := c.toNat) (by omega)
    simp only [frontChar, cons_append, nil_append, hless hlead, UInt8.reduceToNat, hlead]
    simp (disch := omega) only [if_pos, Char.ofNat_toNat, length_singleton]
  next =>
  split
  next =>
    have hlead := toNat_byteOfNat (n := c.toNat / 64 % 32 + 192) (by omega)
    simp only [frontChar, cons_append, nil_append, hless hlead, UInt8.reduceToNat, hlead,
      hmore, hload]
    simp (disch := omega) only [if_pos, if_neg, hscalar]
    rfl
  next =>
  split
  next =>
    have hlead := toNat_byteOfNat (n := c.toNat / 4096 % 16 + 224) (by omega)
    simp only [frontChar, cons_append, nil_append, hless hlead, UInt8.reduceToNat, hlead,
      hmore, hload, Bool.and_self]
    simp (disch := omega) only [if_pos, if_neg, hscalar]
    rfl
  next =>
    have hlead := toNat_byteOfNat (n := c.toNat / 262144 % 8 + 240) (by omega)
    simp only [frontChar, cons_append, nil_append, hless hlead, UInt8.reduceToNat, hlead,
      hmore, hload, Bool.and_self]
    simp (disch := omega) only [if_pos, if_neg, hscalar]
    rfl

/-- The bytes that are taken for a character are those of the character. -/
theorem take_of_frontChar {bs : Bytes} {c : Char} {width : Nat}
    (h : frontChar bs = some (c, width)) : bs.take width = String.utf8EncodeChar c := by
  have hval : c.val.toNat = c.toNat := rfl
  have hbyte {b : UInt8} {n : Nat} (h : b.toNat = n) : b = UInt8.ofNat n := by
    rw [← h, UInt8.ofNat_toNat]
  cases bs with
  | nil => cases h
  | cons a rest =>
  have ha := a.toNat_lt
  simp only [frontChar, UInt8.lt_iff_toNat_lt, UInt8.reduceToNat] at h
  simp only [String.utf8EncodeChar, hval]
  split at h
  next =>
    cases h
    rw [toNat_charOfNat (Or.inl (by omega)), if_pos (by omega), UInt8.ofNat_toNat]
    rfl
  next =>
  split at h
  next => cases h
  next =>
  split at h
  next =>
    split at h <;> try cases h
    next b rest =>
    split at h <;> try cases h
    next hb =>
    simp only [Option.map_eq_some_iff, scalar_eq_some, isContinuation_iff, payload,
      Prod.mk.injEq] at h hb
    obtain ⟨_, ⟨_, hn⟩, rfl, rfl⟩ := h
    rw [if_neg (by omega), if_pos (by omega), ← hbyte (b := a) (by omega),
      ← hbyte (b := b) (by omega)]
    rfl
  next =>
  split at h
  next =>
    split at h <;> try cases h
    next b d rest =>
    split at h <;> try cases h
    next hb =>
    simp only [Option.map_eq_some_iff, scalar_eq_some, isContinuation_iff, payload,
      Prod.mk.injEq, Bool.and_eq_true] at h hb
    obtain ⟨_, ⟨_, hn⟩, rfl, rfl⟩ := h
    rw [if_neg (by omega), if_neg (by omega), if_pos (by omega), ← hbyte (b := a) (by omega),
      ← hbyte (b := b) (by omega), ← hbyte (b := d) (by omega)]
    rfl
  next =>
  split at h
  next =>
    split at h <;> try cases h
    next b d e rest =>
    split at h <;> try cases h
    next hb =>
    simp only [Option.map_eq_some_iff, scalar_eq_some, isContinuation_iff, payload,
      Prod.mk.injEq, Bool.and_eq_true] at h hb
    obtain ⟨_, ⟨_, hn⟩, rfl, rfl⟩ := h
    rw [if_neg (by omega), if_neg (by omega), if_neg (by omega), ← hbyte (b := a) (by omega),
      ← hbyte (b := b) (by omega), ← hbyte (b := d) (by omega), ← hbyte (b := e) (by omega)]
    rfl
  next => cases h

theorem utf8EncodeChar_ne_nil (c : Char) : String.utf8EncodeChar c ≠ [] := by
  unfold String.utf8EncodeChar
  grind

/-- A byte of the ASCII range stands for a character of its own. -/
theorem toNat_of_mem_utf8EncodeChar {c : Char} {b : UInt8} (h : b ∈ String.utf8EncodeChar c)
    (hb : b.toNat < 128) : c.toNat = b.toNat := by
  have hval : c.val.toNat = c.toNat := rfl
  -- All bytes of a longer code have their first bit set.
  have hmore {n k : Nat} (hk : 128 ≤ k) (hn : n + k < 256) : b ≠ UInt8.ofNat (n + k) := by
    rintro rfl
    rw [toNat_byteOfNat hn] at hb
    omega
  simp only [String.utf8EncodeChar, hval] at h
  split at h
  next => rw [mem_singleton.mp h, toNat_byteOfNat (by omega)]
  next =>
  split at h
  next => simp (disch := omega) only [mem_cons, not_mem_nil, hmore, or_self] at h
  next =>
  split at h
  next => simp (disch := omega) only [mem_cons, not_mem_nil, hmore, or_self] at h
  next => simp (disch := omega) only [mem_cons, not_mem_nil, hmore, or_self] at h

/-! ### Characters and stray bytes -/

end Text

/-- What a character or a stray byte stands for. -/
def Rune.text : Rune → Text
  | .char c => .ofChar c
  | .stray b => ⟨[b]⟩

namespace Text

theorem bytes_ofChar (c : Char) : (ofChar c).bytes = String.utf8EncodeChar c := by
  rw [ofChar_eq, bytes_ofChars, flatMap_singleton]

theorem runes_ofChar_append (c : Char) (t : Text) : (ofChar c ++ t).runes = .char c :: t.runes := by
  rw [runes, bytes_append, bytes_ofChar]
  cases hbytes : String.utf8EncodeChar c with
  | nil => exact absurd hbytes (utf8EncodeChar_ne_nil c)
  | cons a more =>
    have hfront := frontChar_utf8EncodeChar c t.bytes
    rw [hbytes, cons_append] at hfront
    rw [cons_append, runesOf, hfront]
    simp [runes]

theorem runes_ofChars_append (cs : List Char) (t : Text) :
    (ofChars cs ++ t).runes = cs.map .char ++ t.runes := by
  induction cs with
  | nil => rfl
  | cons c cs ih => rw [ofChars_cons, append_assoc, runes_ofChar_append, ih]; rfl

theorem runes_ofChars (cs : List Char) : (ofChars cs).runes = cs.map .char := by
  have h := runes_ofChars_append cs ∅
  rwa [append_empty, show (∅ : Text).runes = [] by rw [runes, bytes_empty, runesOf],
    append_nil] at h

/-- **Characters are read back from their bytes.** -/
theorem toChars_ofChars (cs : List Char) : (ofChars cs).toChars = cs := by
  rw [toChars, runes_ofChars, map_map]
  exact map_id cs

theorem ofChars_injective {cs ds : List Char} (h : ofChars cs = ofChars ds) : cs = ds := by
  rw [← toChars_ofChars cs, h, toChars_ofChars]

theorem isUtf8_ofChars (cs : List Char) : (ofChars cs).isUtf8 := by
  rw [isUtf8, runes_ofChars, all_map]
  exact all_eq_true.mpr fun _ _ => rfl

/-- **Nothing of a text is lost** when it is read as characters and stray bytes. -/
theorem concat_runes (t : Text) : concat (t.runes.map Rune.text) = t := by
  have hbytes (bs : Bytes) : concat ((runesOf bs).map Rune.text) = ⟨bs⟩ := by
    fun_induction runesOf bs with
    | case1 => rfl
    | case2 a rest c width hfront ih =>
      have htake := take_of_frontChar hfront
      cases width with
      | zero => exact absurd htake.symm (utf8EncodeChar_ne_nil c)
      | succ width =>
        rw [map_cons, concat_cons, ih]
        refine ext_bytes ?_
        rw [bytes_append, Rune.text, bytes_ofChar, ← htake, take_succ_cons,
          Nat.add_sub_cancel, cons_append, take_append_drop]
    | case3 a rest hfront ih => rw [map_cons, concat_cons, ih]; rfl
  exact hbytes t.bytes

end Text

end Resumable
