import Mathlib.Data.List.Basic
import Resumable.CodeUnit.Basic
import Resumable.Proofs.Text.Utf8

/-!
# Symbols that are known from their descriptors

A symbol is looked for in its table by its descriptor, `Owner.name(T,U)R`. Classes and names may hold
the signs that divide a descriptor, and a class may be called like another type, so two symbols can be
written alike. `Symbol.text_eq_iff` says what is left open when only the dot is in doubt, and
`Symbol.eq_of_text_eq` that nothing is left open for legible symbols.
-/

namespace Resumable

open List

/-! ## Signs that divide a descriptor -/

namespace Sign

def opening : UInt8 := 40
def closing : UInt8 := 41
def comma : UInt8 := 44
def dot : UInt8 := 46

end Sign

/-- A type that is known from its word, in a list that commas divide and a parenthesis closes. -/
def Ty.Listed (t : Ty) : Prop :=
  t.text ≠ ∅ ∧ Sign.comma ∉ t.text.bytes ∧ Sign.closing ∉ t.text.bytes ∧ Ty.ofText t.text = t

instance (t : Ty) : Decidable t.Listed := inferInstanceAs (Decidable (_ ∧ _ ∧ _ ∧ _))

namespace Symbol

/-- A symbol whose descriptor falls into key, parameters and result in one way only. -/
def Divided (s : Symbol) : Prop :=
  Sign.opening ∉ s.key.bytes ∧ (∀ t ∈ s.params, t.Listed) ∧ Ty.ofText s.result.text = s.result

/-- A symbol whose key falls into owner and name in one way only: the last dot stands behind the
owner. -/
def Qualified (s : Symbol) : Prop := Sign.dot ∉ s.name.bytes

/-- A symbol that is known from its descriptor. -/
def Legible (s : Symbol) : Prop := s.Divided ∧ s.Qualified

instance (s : Symbol) : Decidable s.Divided := inferInstanceAs (Decidable (_ ∧ _ ∧ _))

instance (s : Symbol) : Decidable s.Qualified := inferInstanceAs (Decidable (¬_))

instance (s : Symbol) : Decidable s.Legible := inferInstanceAs (Decidable (_ ∧ _))

end Symbol

/-! ## Words between signs -/

/-- What stands before the first sign of a kind, and what behind it. -/
theorem append_cons_inj {α : Type} {a : α} {xs xs' ys ys' : List α} (hx : a ∉ xs) (hx' : a ∉ xs')
    (h : xs ++ a :: ys = xs' ++ a :: ys') : xs = xs' ∧ ys = ys' := by
  induction xs generalizing xs' with
  | nil =>
    cases xs' with
    | nil => exact ⟨rfl, (cons.inj h).2⟩
    | cons b xs' => exact absurd (cons.inj h).1 (ne_of_not_mem_cons hx')
  | cons b xs ih =>
    cases xs' with
    | nil => exact absurd (cons.inj h).1.symm (ne_of_not_mem_cons hx)
    | cons b' xs' =>
      obtain ⟨rfl, htail⟩ := cons.inj h
      obtain ⟨rfl, rfl⟩ := ih (not_mem_of_not_mem_cons hx)
        (not_mem_of_not_mem_cons hx') htail
      exact ⟨rfl, rfl⟩

/-- What stands before the last sign of a kind, and what behind it. -/
theorem append_cons_inj_right {α : Type} {a : α} {xs xs' ys ys' : List α} (hy : a ∉ ys) (hy' : a ∉ ys')
    (h : xs ++ a :: ys = xs' ++ a :: ys') : xs = xs' ∧ ys = ys' := by
  have hreverse := congrArg reverse h
  simp only [reverse_append, reverse_cons, append_assoc, singleton_append]
    at hreverse
  obtain ⟨hys, hxs⟩ := append_cons_inj (by simpa using hy) (by simpa using hy') hreverse
  exact ⟨reverse_injective hxs, reverse_injective hys⟩

namespace Text

theorem join_singleton (sep t : Text) : (join sep [t]).bytes = t.bytes :=
  append_nil t.bytes

theorem join_cons_cons (sep t u : Text) (ts : List Text) :
    (join sep (t :: u :: ts)).bytes = t.bytes ++ (sep.bytes ++ (join sep (u :: ts)).bytes) := rfl

theorem bytes_join (sep : Text) (ts : List Text) :
    (join sep ts).bytes = sep.bytes.intercalate (ts.map bytes) := by
  induction ts with
  | nil => rfl
  | cons t ts ih =>
    cases ts with
    | nil => rw [join_singleton, map_singleton, intercalate_singleton]
    | cons u ts =>
      rw [join_cons_cons, ih]
      simp only [map_cons, intercalate_cons_cons, List.append_assoc]

/-- A list of words starts with a word. -/
theorem join_cons_ne_nil {sep t : Text} {ts : List Text} (ht : t ≠ ∅) :
    (join sep (t :: ts)).bytes ≠ [] := by
  have hne : t.bytes ≠ [] := fun h => ht (ext_bytes h)
  cases ts with
  | nil => rwa [join_singleton]
  | cons u ts => exact append_ne_nil_of_left_ne_nil hne _

/-- Words with commas between them are known from the whole. -/
theorem join_comma_inj {ts us : List Text} (ht : ∀ t ∈ ts, t ≠ ∅ ∧ Sign.comma ∉ t.bytes)
    (hu : ∀ t ∈ us, t ≠ ∅ ∧ Sign.comma ∉ t.bytes)
    (h : (join "," ts).bytes = (join "," us).bytes) : ts = us := by
  have hsplit : ∀ {ts : List Text}, ts ≠ [] → (∀ t ∈ ts, t ≠ ∅ ∧ Sign.comma ∉ t.bytes) →
      (join "," ts).bytes.splitOn Sign.comma = ts.map bytes := by
    intro ts hne ht
    rw [bytes_join]
    refine splitOn_intercalate Sign.comma (fun l hl => ?_) (by simpa using hne)
    obtain ⟨t, hmem, rfl⟩ := mem_map.mp hl
    exact (ht t hmem).2
  cases ts with
  | nil =>
    cases us with
    | nil => rfl
    | cons u us => exact absurd h.symm (join_cons_ne_nil (hu u mem_cons_self).1)
  | cons t ts =>
    cases us with
    | nil => exact absurd h (join_cons_ne_nil (ht t mem_cons_self).1)
    | cons u us =>
      have hwords := hsplit (cons_ne_nil t ts) ht
      rw [h, hsplit (cons_ne_nil u us) hu] at hwords
      exact (map_injective_iff.mpr fun _ _ => ext_bytes) hwords.symm

/-- A sign that stands in no word and not between words stands nowhere. -/
theorem not_mem_join {sep : Text} {ts : List Text} {b : UInt8} (hsep : b ∉ sep.bytes)
    (ht : ∀ t ∈ ts, b ∉ t.bytes) : b ∉ (join sep ts).bytes := by
  induction ts with
  | nil => exact not_mem_nil
  | cons t ts ih =>
    rw [forall_mem_cons] at ht
    cases ts with
    | nil => rw [join_singleton]; exact ht.1
    | cons u ts =>
      rw [join_cons_cons, mem_append, mem_append]
      rintro (hb | hb | hb)
      · exact ht.1 hb
      · exact hsep hb
      · exact ih ht.2 hb

end Text

/-! ## Descriptors -/

theorem Ty.map_ofText {ts : List Ty} (ht : ∀ t ∈ ts, t.Listed) : (ts.map text).map ofText = ts := by
  rw [map_map]
  exact (map_congr_left fun t hmem => (ht t hmem).2.2.2).trans (map_id ts)

/-- Types that are known from their words are known from the list of these. -/
theorem Ty.params_inj {ts us : List Ty} (ht : ∀ t ∈ ts, t.Listed) (hu : ∀ t ∈ us, t.Listed)
    (h : (Text.join "," (ts.map text)).bytes = (Text.join "," (us.map text)).bytes) : ts = us := by
  have hwords : ∀ {ts : List Ty}, (∀ t ∈ ts, t.Listed) →
      ∀ w ∈ ts.map text, w ≠ ∅ ∧ Sign.comma ∉ w.bytes := fun ht =>
    forall_mem_map.mpr fun t hmem => ⟨(ht t hmem).1, (ht t hmem).2.1⟩
  have htext := Text.join_comma_inj (hwords ht) (hwords hu) h
  rw [← map_ofText ht, htext, map_ofText hu]

namespace Symbol

variable {a b : Symbol}

/-- **What a descriptor tells** when it falls into its parts in one way only. -/
theorem text_eq_iff (ha : a.Divided) (hb : b.Divided) :
    a.text = b.text ↔ a.key = b.key ∧ a.params = b.params ∧ a.result = b.result := by
  constructor
  · intro h
    have hbytes (s : Symbol) : s.text.bytes = s.key.bytes ++ Sign.opening ::
        ((Text.join "," (s.params.map Ty.text)).bytes ++ Sign.closing :: s.result.text.bytes) := by
      simp only [text, Text.bytes_append, append_assoc]
      rfl
    have hclosing {s : Symbol} (hs : s.Divided) :
        Sign.closing ∉ (Text.join "," (s.params.map Ty.text)).bytes :=
      Text.not_mem_join (by decide) (forall_mem_map.mpr fun t ht => (hs.2.1 t ht).2.2.1)
    have htext := congrArg Text.bytes h
    rw [hbytes, hbytes] at htext
    obtain ⟨hkey, hrest⟩ := append_cons_inj ha.1 hb.1 htext
    obtain ⟨hparams, hresult⟩ := append_cons_inj (hclosing ha) (hclosing hb) hrest
    refine ⟨Text.ext_bytes hkey, Ty.params_inj ha.2.1 hb.2.1 hparams, ?_⟩
    rw [← ha.2.2, ← hb.2.2, Text.ext_bytes hresult]
  · rintro ⟨hkey, hparams, hresult⟩
    rw [text, text, hkey, hparams, hresult]

/-- Owner and name are known from the key, if it falls into them in one way only. -/
theorem key_inj (ha : a.Qualified) (hb : b.Qualified) (h : a.key = b.key) :
    a.owner = b.owner ∧ a.name = b.name := by
  have hnone {s : Symbol} (hs : s.owner = ∅) : s.key = s.name := by rw [key, hs]; rfl
  have hsome {s : Symbol} (hs : s.owner ≠ ∅) :
      s.key.bytes = s.owner.bytes ++ Sign.dot :: s.name.bytes := by
    have hne : ¬ s.owner.isEmpty := fun h => hs (Text.ext_bytes (List.isEmpty_iff.mp h))
    rw [key, if_neg hne, Text.bytes_append, Text.bytes_append, append_assoc]
    rfl
  -- A dot tells whether there is an owner.
  have hdot {s t : Symbol} (hs : s.owner ≠ ∅) (ht : t.owner = ∅) (hq : t.Qualified) :
      s.key ≠ t.key := by
    intro h
    have hmem : Sign.dot ∈ t.name.bytes := by
      rw [← hnone ht, ← h, hsome hs]
      exact mem_append_right _ mem_cons_self
    exact hq hmem
  by_cases hoa : a.owner = ∅ <;> by_cases hob : b.owner = ∅
  · exact ⟨hoa.trans hob.symm, by rw [← hnone hoa, h, hnone hob]⟩
  · exact absurd h.symm (hdot hob hoa ha)
  · exact absurd h (hdot hoa hob hb)
  · have hkey := congrArg Text.bytes h
    rw [hsome hoa, hsome hob] at hkey
    obtain ⟨howner, hname⟩ := append_cons_inj_right ha hb hkey
    exact ⟨Text.ext_bytes howner, Text.ext_bytes hname⟩

/-- **A legible symbol is known from its descriptor** among all legible ones. -/
theorem eq_of_text_eq (ha : a.Legible) (hb : b.Legible) (h : a.text = b.text) : a = b := by
  obtain ⟨hkey, hparams, hresult⟩ := (text_eq_iff ha.1 hb.1).mp h
  obtain ⟨howner, hname⟩ := key_inj ha.2 hb.2 hkey
  cases a
  cases b
  simp_all

end Symbol

end Resumable
