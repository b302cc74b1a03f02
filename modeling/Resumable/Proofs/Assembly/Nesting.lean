import Resumable.Proofs.Assembly.Run

/-!
# Tokens between parentheses

`Taken k ts ts'` says that from `ts` to `ts'` whole forms and other tokens are taken, with the ends of
`k` forms around them. It is said by the search for a closing parenthesis: one in `ts` comes to the same
end as one in `ts'` that starts `k` forms further out. Productions are compared with that search, and
never with each other.
-/

namespace Resumable.Assembly

/-- `ts'` is what is left of `ts` behind whole forms, other tokens, and the ends of `k` open forms. -/
structure Taken (k : Nat) (ts ts' : List Token) : Prop where
  suffix : ts' <:+ ts
  balanced : ∀ depth, Parser.balanced (depth + k + 1) ts = Parser.balanced (depth + 1) ts'

variable {k m depth : Nat} {t : Token} {ts mid ts' : List Token}

/-- A token that is no parenthesis. -/
def Token.IsAtom (t : Token) : Prop := t.kind ≠ .lparen ∧ t.kind ≠ .rparen

theorem Token.isAtom_of_ident (ht : t.kind = .ident) : t.IsAtom := by
  rw [IsAtom, ht]
  decide

namespace Parser

theorem balanced_atom (ht : t.IsAtom) : balanced depth (t :: ts) = balanced depth ts := by
  rw [balanced]
  split
  next h => exact absurd h ht.1
  next h => exact absurd h ht.2
  next => rfl

theorem balanced_opening (ht : t.kind = .lparen) :
    balanced depth (t :: ts) = balanced (depth + 1) ts := by
  rw [balanced, ht]

/-- The word of a form is looked at before it is taken with the parenthesis. -/
theorem balanced_form (h : formOf ts ≠ ∅) : balanced depth ts = balanced (depth + 1) (ts.drop 2) := by
  unfold formOf at h
  split at h
  next a b rest =>
    split at h
    next hk =>
      rw [Bool.and_eq_true, decide_eq_true_eq, decide_eq_true_eq] at hk
      rw [balanced_opening hk.1, balanced_atom (Token.isAtom_of_ident hk.2)]
      rfl
    next => exact absurd rfl h
  next => exact absurd rfl h

theorem isAtom_of_indexOf {n : UInt32} (h : indexOf t = .ok n) : t.IsAtom := by
  unfold indexOf at h
  split at h
  next hk =>
    rw [Token.IsAtom, hk]
    decide
  next => cases h

end Parser

namespace Taken

open List

theorem refl (ts : List Token) : Taken 0 ts ts := ⟨suffix_refl ts, fun _ => rfl⟩

theorem trans (h : Taken k ts mid) (h' : Taken m mid ts') : Taken (k + m) ts ts' := by
  refine ⟨h'.suffix.trans h.suffix, fun depth => ?_⟩
  rw [← h'.balanced, ← h.balanced, Nat.add_assoc depth m k, Nat.add_comm m k]

theorem atom (ht : t.IsAtom) : Taken 0 (t :: ts) ts :=
  ⟨suffix_cons t ts, fun _ => Parser.balanced_atom ht⟩

theorem ident (ht : t.kind = .ident) : Taken 0 (t :: ts) ts := atom (Token.isAtom_of_ident ht)

theorem closing (ht : t.kind = .rparen) : Taken 1 (t :: ts) ts := by
  refine ⟨suffix_cons t ts, fun depth => ?_⟩
  rw [Parser.balanced, ht]
  exact if_neg (by omega)

theorem opening (ht : t.kind = .lparen) (h : Taken 1 ts ts') : Taken 0 (t :: ts) ts' :=
  ⟨h.suffix.trans (suffix_cons t ts),
    fun depth => (Parser.balanced_opening ht).trans (h.balanced depth)⟩

theorem form (hform : Parser.formOf ts ≠ ∅) (h : Taken 1 (ts.drop 2) ts') : Taken 0 ts ts' :=
  ⟨h.suffix.trans (drop_suffix 2 ts),
    fun depth => (Parser.balanced_form hform).trans (h.balanced depth)⟩

end Taken

end Resumable.Assembly
