import Resumable.Proofs.Assembly.Lexing
import Resumable.Proofs.Assembly.Nesting

/-!
# What assembly can spell

Names of an assembled unit come from identifiers. The predicates `Spelled` say, for each sort of
entry, which names it can have; a type that is read from tokens is spelled.
-/

namespace Resumable

open Assembly List Assembly.Parser

/-! ## Entries -/

/-- A word of the characters that an identifier may have; it may start with a digit, or be empty. -/
def Assembly.IsWord (t : Text) : Prop := ∃ cs, t = Text.ofChars cs ∧ ∀ c ∈ cs, isIdentChar c

theorem Assembly.IsIdent.isWord {t : Text} (h : IsIdent t) : IsWord t := by
  obtain ⟨cs, rfl, hcs⟩ := isIdent_iff.mp h
  refine ⟨cs, rfl, ?_⟩
  cases cs with
  | nil => cases hcs
  | cons c cs =>
    rw [isIdentChars, Bool.and_eq_true, Bool.and_eq_true, all_eq_true] at hcs
    exact forall_mem_cons.mpr ⟨hcs.1.1, hcs.2⟩

theorem Ty.text_ofText (t : Text) : (Ty.ofText t).text = t := by
  unfold Ty.ofText
  grind [Ty.text]

/-- A type that a word denotes. -/
structure Ty.Spelled (t : Ty) : Prop where
  ident : IsIdent t.text
  notId : isId t.text = false
  denoted : Ty.ofText t.text = t

structure ClassDecl.Spelled (c : ClassDecl) : Prop where
  name : IsIdent c.name
  super : c.super = ∅ ∨ IsIdent c.super ∧ c.super ≠ ClassName.object

/-- The name of a symbol may be that of a function, which need not be an identifier. -/
structure Symbol.Spelled (s : Symbol) : Prop where
  owner : s.owner = ∅ ∨ IsIdent s.owner ∧ s.owner ≠ "."
  name : IsWord s.name
  params : ∀ t ∈ s.params, t.Spelled
  result : s.result.Spelled

structure Layout.Spelled (l : Layout) : Prop where
  function : IsIdent l.function
  fields : ∀ t ∈ l.fields, t.Spelled

/-- The class and the kind of a handler. -/
structure HandlerSpelled (cls : Text) (kind : UInt8) : Prop where
  named : cls = ∅ ∨ IsIdent cls ∧ cls ≠ "any"
  cleanup : kind = Handler.cleanupKind → cls = ∅

structure FrameEntry.Spelled (f : FrameEntry) : Prop where
  locals : ∀ t ∈ f.locals, t.Spelled
  stack : ∀ t ∈ f.stack, t.Spelled

structure Func.Spelled (f : Func) : Prop where
  name : IsWord f.name
  params : ∀ t ∈ f.params, t.Spelled
  result : f.result.Spelled
  handlers : ∀ h ∈ f.handlers, HandlerSpelled h.cls h.kind
  frames : ∀ x ∈ f.frames, x.Spelled
  flags : f.flags < 4

namespace Assembly

/-! ## Tokens -/

/-- Tokens whose identifiers are read as such. -/
def Lexed (ts : List Token) : Prop := ∀ t ∈ ts, t.kind = .ident → IsIdent t.text

variable {t : Token} {ts ts' : List Token}

theorem Lexed.of_suffix (h : Lexed ts) (hs : ts' <:+ ts) : Lexed ts' :=
  fun t ht => h t (hs.mem ht)

theorem Lexed.ident (h : Lexed ts) (hs : t :: ts' <:+ ts) (hk : t.kind = .ident) : IsIdent t.text :=
  h t (hs.mem mem_cons_self) hk

theorem suffix_of_cons {α : Type} {a : α} {xs ys : List α} (h : a :: xs <:+ ys) : xs <:+ ys :=
  (suffix_cons a xs).trans h

theorem suffix_of_drop {α : Type} {n : Nat} {xs ys : List α} (h : ys.drop n = xs) : xs <:+ ys :=
  h ▸ drop_suffix n ys

theorem exists_of_drop_two {α : Type} {x : α} {xs ys : List α} (h : ys.drop 2 = x :: xs) :
    ∃ a b, ys = a :: b :: x :: xs := by
  match ys, h with
  | a :: b :: _, h => exact ⟨a, b, by rw [← h]; rfl⟩

/-! ### Types -/

theorem spelled_void : Ty.void.Spelled := ⟨by decide +kernel, by decide +kernel, by decide +kernel⟩

theorem spelled_of_typeOf {ty : Ty} (h : typeOf t = .ok ty) :
    t.kind = .ident ∧ (IsIdent t.text → ty.Spelled) := by
  unfold typeOf at h
  split at h
  next => cases h
  next hk =>
  split at h
  next => cases h
  next hid =>
    cases h
    rw [Bool.not_eq_true] at hid
    refine ⟨Decidable.not_not.mp hk, fun ht => ⟨?_, ?_, ?_⟩⟩
    · rw [Ty.text_ofText]; exact ht
    · rw [Ty.text_ofText]; exact hid
    · rw [Ty.text_ofText]

theorem spelled_of_typesIn {tys : List Ty} (h : typesIn ts = .ok (tys, ts')) :
    (Lexed ts → ∀ ty ∈ tys, ty.Spelled) ∧ Taken 1 ts ts' := by
  fun_induction typesIn ts generalizing tys with
  | case1 => cases h
  | case2 t rest hk =>
    cases h
    exact ⟨fun _ _ hty => (nomatch hty), .closing hk⟩
  | case3 t rest hk ih =>
    obtain ⟨ty, hty, h⟩ := bind_eq_ok.mp h
    obtain ⟨⟨tys, rest'⟩, htys, h⟩ := bind_eq_ok.mp h
    cases h
    obtain ⟨hident, hty⟩ := spelled_of_typeOf hty
    obtain ⟨hspelled, hrest⟩ := ih htys
    refine ⟨fun hts => forall_mem_cons.mpr ⟨hty ?_, ?_⟩, (Taken.ident hident).trans hrest⟩
    · exact hts.ident (suffix_refl _) hident
    · exact hspelled (hts.of_suffix (suffix_cons t rest))

theorem spelled_of_params {tys : List Ty} (h : params.Gives ts tys ts') :
    (Lexed ts → ∀ ty ∈ tys, ty.Spelled) ∧ Taken 0 ts ts' := by
  simp only [params, gives_bind, gives_form] at h
  obtain ⟨w, mid, ⟨rfl, rfl⟩, h⟩ := h
  split at h
  next hform =>
    obtain ⟨_, mid, hskip, h⟩ := gives_bind.mp h
    cases gives_skip.mp hskip
    obtain ⟨hspelled, hrest⟩ := spelled_of_typesIn h
    exact ⟨fun hts => hspelled (hts.of_suffix (drop_suffix 2 _)),
      .form (hform ▸ by decide) hrest⟩
  next =>
    obtain ⟨rfl, rfl⟩ := gives_pure.mp h
    exact ⟨fun _ _ hty => (nomatch hty), .refl _⟩

theorem spelled_of_result {ty : Ty} (h : result.Gives ts ty ts') :
    (Lexed ts → ty.Spelled) ∧ Taken 0 ts ts' := by
  simp only [result, gives_bind, gives_form] at h
  obtain ⟨w, mid, ⟨rfl, rfl⟩, h⟩ := h
  split at h
  next hform =>
    simp only [type, gives_bind, gives_skip, gives_next,
      gives_attempt, gives_close, gives_pure] at h
    obtain ⟨_, mid, rfl, ty, mid', ⟨t, mid'', hdrop, hty, rfl⟩, _, mid, ⟨_, rfl, hk⟩, rfl, rfl⟩ := h
    obtain ⟨hident, hty⟩ := spelled_of_typeOf hty
    refine ⟨fun hts => hty (hts.ident (suffix_of_drop hdrop) hident), .form (hform ▸ by decide) ?_⟩
    rw [hdrop]
    exact (Taken.ident hident).trans (.closing hk)
  next =>
    obtain ⟨rfl, rfl⟩ := gives_pure.mp h
    exact ⟨fun _ => spelled_void, .refl _⟩

theorem taken_of_index {n : UInt32} (h : index.Gives ts n ts') : Taken 0 ts ts' := by
  simp only [index, gives_bind, gives_next, gives_attempt] at h
  obtain ⟨t, mid, rfl, hn, rfl⟩ := h
  exact .atom (isAtom_of_indexOf hn)

theorem taken_of_int {bits : Nat} {n : Int} (h : (int bits).Gives ts n ts') : Taken 0 ts ts' := by
  simp only [int, gives_bind, gives_expect] at h
  obtain ⟨t, mid, ⟨rfl, hk⟩, h⟩ := h
  split at h
  next =>
    obtain ⟨-, rfl⟩ := gives_pure.mp h
    exact .atom (by rw [Token.IsAtom, hk]; decide)
  next => exact absurd (gives_attempt.mp h).1 reject_ne_ok

end Assembly

end Resumable
