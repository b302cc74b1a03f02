import Resumable.Proofs.Assembly.Spelling

/-!
# The first reading of a unit

`FieldStep` says what a field adds to the draft of a unit, `FieldExtent` which tokens it takes, and
`Reading` which drafts the first reading goes through. What holds of all drafts is proved along
`Reading`, one field at a time.
-/

namespace Resumable.Assembly

open DraftParser List Assembly.Parser

variable {t : Token} {ts ts' : List Token} {d d' : Draft} {a : Unit}

/-- An import as it is written: its identifier, and the symbol with owner, name, parameters and result
as they stand there. -/
inductive ImportForm : List Token → Text → Symbol → List Token → Prop
  | mk {a b id owner name last : Token} {rest mid ts' : List Token} {params : List Ty} {result : Ty}
      (hparams : Parser.params.Gives rest params mid)
      (hresult : Parser.result.Gives mid result (last :: ts')) :
      ImportForm (a :: b :: id :: owner :: name :: rest) id.text
        { owner := if owner.text = "." then ∅ else owner.text, name := name.text, params, result } ts'

/-- What one field adds to the draft of a unit. -/
inductive FieldStep (ts : List Token) (d : Draft) : Draft → Prop
  | classDecl {c : ClassDecl} (hc : c.Spelled) :
      FieldStep ts d { d with unit.classes := d.unit.classes ++ [c] }
  | importDecl {id : Text} {s : Symbol} {ts' : List Token} (hform : ImportForm ts id s ts')
      (hs : s.Spelled) :
      FieldStep ts d { d with
        unit := (d.unit.addSymbol s).2
        scope.imports := d.scope.imports ++ [(id, (d.unit.addSymbol s).1)] }
  | record {l : Layout} (hl : l.Spelled) :
      FieldStep ts d { d with unit := (d.unit.addRecord l).2 }
  | function {f : Func} {body : List Token} {locals stack : Option UInt32} (hf : f.Spelled)
      (hcode : f.code = []) (hnew : d.scope.functions.lookup ("$" ++ f.name) = none)
      (hbody : body <:+ ts) :
      FieldStep ts d { d with
        unit.functions := d.unit.functions ++ [f]
        scope.functions := d.scope.functions ++ [("$" ++ f.name, d.unit.functions.length)]
        pending := d.pending ++ [{ index := d.unit.functions.length, body, locals, stack }] }

/-- What one field takes. A class, an import or a record is taken whole; of a function the head is taken,
and the body is left for later and stepped over. -/
inductive FieldExtent (ts : List Token) (d d' : Draft) (ts' : List Token) : Prop
  | whole (htaken : ts' <:+ ts) (hpending : d'.pending = d.pending)
  | function {head : List Token} {p : Pending} (hhead : ts = head ++ p.body)
      (hpending : d'.pending = d.pending ++ [p]) (hskip : Parser.balanced 0 ts = .ok ts')
      (hbody : Parser.balanced 1 p.body = .ok ts')

theorem step_of_classDecl (h : Yields classDecl d ts a d' ts') :
    (Lexed ts → FieldStep ts d d') ∧ FieldExtent ts d d' ts' := by
  simp only [classDecl, ↓yields_lift_bind, yields_bind, yields_lift, gives_skip,
    gives_expect, gives_ident?, yields_modify, gives_close, and_assoc,
    exists_eq_left', exists_const, exists_and_left] at h
  obtain ⟨name, mid, hdrop, hname, o, mid', hsuper, ⟨_, rfl, -⟩, rfl⟩ := h
  have hmid := suffix_of_drop hdrop
  refine ⟨fun hts => .classDecl ⟨hts.ident hmid hname, ?_⟩, .whole ?_ rfl⟩
  · rcases hsuper with ⟨t, rfl, rfl, hk⟩ | ⟨rfl, -⟩
    · dsimp only
      split
      next => exact .inl rfl
      next hne => exact .inr ⟨hts.ident (suffix_of_cons hmid) hk, hne⟩
    · exact .inl rfl
  · rcases hsuper with ⟨t, rfl, rfl, hk⟩ | ⟨rfl, rfl, -⟩
    · exact suffix_of_cons (suffix_of_cons (suffix_of_cons hmid))
    · exact suffix_of_cons (suffix_of_cons hmid)

theorem step_of_importDecl (h : Yields importDecl d ts a d' ts') :
    (Lexed ts → FieldStep ts d d') ∧ FieldExtent ts d d' ts' := by
  simp only [importDecl, ↓yields_lift_bind, yields_bind, yields_lift, gives_skip,
    gives_expect, yields_modify, gives_close, yields_unless, yields_get, and_assoc,
    exists_eq_left', exists_const, exists_and_left] at h
  obtain ⟨id, _, hdrop, hid, -, -, owner, _, rfl, howner, name, _, rfl, hname, params, _, hparams,
    result, _, hresult, ⟨last, rfl, -⟩, rfl⟩ := h
  have hid' := suffix_of_cons (suffix_of_drop hdrop)
  have hname' := suffix_of_cons hid'
  have hrest := suffix_of_cons hname'
  obtain ⟨hparams', hmid⟩ := spelled_of_params hparams
  have hmid := hmid.suffix.trans hrest
  obtain ⟨hresult', hlast⟩ := spelled_of_result hresult
  obtain ⟨a, b, rfl⟩ := exists_of_drop_two hdrop
  refine ⟨fun hts => .importDecl (.mk hparams hresult) ⟨?_, ?_, hparams' (hts.of_suffix hrest),
    hresult' (hts.of_suffix hmid)⟩, .whole ((suffix_of_cons hlast.suffix).trans hmid) rfl⟩
  · dsimp only
    split
    next => exact .inl rfl
    next hne => exact .inr ⟨hts.ident hid' howner, hne⟩
  · exact (hts.ident hname' hname).isWord

theorem step_of_record (h : Yields record d ts a d' ts') :
    (Lexed ts → FieldStep ts d d') ∧ FieldExtent ts d d' ts' := by
  simp only [record, ↓yields_lift_bind, yields_bind, yields_lift, gives_skip,
    gives_expect, yields_modify, gives_close, yields_unless, yields_get,
    gives_form, and_assoc, exists_eq_left', exists_const, exists_and_left] at h
  obtain ⟨function, _, hdrop, hfunction, point, mid, hpoint, -, fields, _, htypes, ⟨last, rfl, -⟩,
    rfl⟩ := h
  have hname := suffix_of_drop hdrop
  have hmid := (taken_of_index hpoint).suffix.trans (suffix_of_cons hname)
  have hmid' := (drop_suffix 2 mid).trans hmid
  obtain ⟨hspelled, hlast⟩ := spelled_of_typesIn htypes
  exact ⟨fun hts => .record ⟨hts.ident hname hfunction, hspelled (hts.of_suffix hmid')⟩,
    .whole ((suffix_of_cons hlast.suffix).trans hmid') rfl⟩

/-! ### Heads of functions -/

theorem or_lt_four {x y : UInt8} (hx : x < 4) (hy : y < 4) : x ||| y < 4 := by
  rw [UInt8.lt_iff_toNat_lt] at *
  rw [UInt8.toNat_or]
  exact Nat.or_lt_two_pow (n := 2) hx hy

theorem flags_lt_of_flagsIn {flags : UInt8} (h : flagsIn ts = .ok (flags, ts')) :
    flags < 4 ∧ Taken 0 ts ts' := by
  fun_induction flagsIn ts generalizing flags with
  | case1 | case2 t rest hk =>
    cases h
    exact ⟨by decide, .refl _⟩
  | case3 t rest hk hw ih | case4 t rest hk hw hw' ih =>
    obtain ⟨⟨more, rest'⟩, hmore, h⟩ := bind_eq_ok.mp h
    cases h
    obtain ⟨hlt, hrest⟩ := ih hmore
    exact ⟨or_lt_four hlt (by decide), (Taken.ident (Decidable.not_not.mp hk)).trans hrest⟩
  | case5 => cases h

theorem flags_lt_of_declarations {most : Nat} {x y : Declared} (hx : x.flags < 4)
    (h : (declarations most x).Gives ts y ts') : y.flags < 4 ∧ Taken 0 ts ts' := by
  induction most generalizing x ts with
  | zero =>
    obtain ⟨rfl, rfl⟩ := gives_pure.mp h
    exact ⟨hx, .refl _⟩
  | succ most ih =>
    simp only [declarations, gives_bind, gives_form] at h
    obtain ⟨form, mid, ⟨rfl, rfl⟩, h⟩ := h
    -- A number in a form of its own.
    have hnumber {z : UInt32 → Declared} (hform : formOf ts ≠ ∅)
        (hz : ∀ n, (z n).flags < 4)
        (h : (do
          skip 2
          let n ← index
          close
          declarations most (z n)).Gives ts y ts') : y.flags < 4 ∧ Taken 0 ts ts' := by
      simp only [gives_bind, gives_skip, gives_close] at h
      obtain ⟨_, mid, rfl, n, mid', hindex, _, rest, ⟨t, rfl, ht⟩, h⟩ := h
      obtain ⟨hflags, hrest⟩ := ih (hz n) h
      exact ⟨hflags, (Taken.form hform ((taken_of_index hindex).trans (.closing ht))).trans hrest⟩
    split at h
    next hform =>
      exact hnumber (z := fun n => { x with locals := some n }) (hform ▸ by decide) (fun _ => hx) h
    split at h
    next hform =>
      exact hnumber (z := fun n => { x with stack := some n }) (hform ▸ by decide) (fun _ => hx) h
    split at h
    next hform =>
      simp only [gives_bind, gives_skip, gives_get, gives_attempt,
        gives_set, gives_close] at h
      obtain ⟨_, _, rfl, _, _, ⟨rfl, rfl⟩, ⟨flags, rest⟩, _, ⟨hflags, rfl⟩, _, _, rfl, _, rest',
        ⟨t, rfl, ht⟩, h⟩ := h
      obtain ⟨hlt, hrest⟩ := flags_lt_of_flagsIn hflags
      obtain ⟨hy, hrest'⟩ := ih (or_lt_four hx hlt) h
      exact ⟨hy, (Taken.form (hform ▸ by decide) (hrest.trans (.closing ht))).trans hrest'⟩
    next =>
      obtain ⟨rfl, rfl⟩ := gives_pure.mp h
      exact ⟨hx, .refl _⟩

theorem suffix_of_balanced {depth : Nat} (h : balanced depth ts = .ok ts') : ts' <:+ ts := by
  fun_induction balanced depth ts with
  | case1 => cases h
  | case2 _ t rest _ ih => exact (ih h).trans (suffix_cons t rest)
  | case3 _ t rest =>
    cases h
    exact suffix_cons t _
  | case4 _ t rest _ _ ih => exact (ih h).trans (suffix_cons t rest)
  | case5 _ t rest _ _ ih => exact (ih h).trans (suffix_cons t rest)

/-- An identifier that names something defined in the text is a dollar sign and a word. -/
theorem exists_of_isId {id : Text} (h : IsIdent id) (hid : isId id) :
    id = "$" ++ ⟨id.bytes.drop 1⟩ ∧ IsWord ⟨id.bytes.drop 1⟩ := by
  have hbytes : ∃ rest, id.bytes = 36 :: rest := by
    obtain ⟨rest, hrest⟩ := isPrefixOf_iff_prefix.mp hid
    exact ⟨rest, hrest.symm⟩
  obtain ⟨rest, hrest⟩ := hbytes
  refine ⟨Text.ext_bytes (by rw [hrest]; rfl), ?_⟩
  obtain ⟨cs, rfl, hcs⟩ := h.isWord
  cases cs with
  | nil => cases hrest
  | cons c cs =>
    rw [forall_mem_cons] at hcs
    -- The first byte is a character of its own.
    have hfront := Text.frontChar_utf8EncodeChar c (Text.ofChars cs).bytes
    rw [Text.ofChars_cons, Text.bytes_append, Text.bytes_ofChar] at hrest ⊢
    rw [hrest] at hfront
    have hwidth : (String.utf8EncodeChar c).length = 1 := by
      simp only [Text.frontChar] at hfront
      rw [if_pos (by decide)] at hfront
      exact (Prod.mk.inj (Option.some.inj hfront)).2.symm
    rw [drop_left' hwidth]
    exact ⟨cs, rfl, hcs.2⟩

theorem FieldExtent.suffix (h : FieldExtent ts d d' ts') : ts' <:+ ts := by
  cases h with
  | whole htaken _ => exact htaken
  | function _ _ hskip _ => exact suffix_of_balanced hskip

theorem step_of_function (hform : formOf ts ≠ ∅)
    (h : Yields function d ts a d' ts') :
    (Lexed ts → FieldStep ts d d') ∧ FieldExtent ts d d' ts' := by
  simp only [function, ↓yields_lift_bind, yields_bind, gives_skip,
    gives_expect, yields_modify, yields_unless, yields_get, yields_getTokens,
    yields_setTokens, yields_attempt, and_assoc, exists_eq_left', exists_const,
    exists_and_left] at h
  obtain ⟨id, _, hdrop, hident, hid, hnew, params, mid, hparams, result, mid', hresult, declared, body,
    hdeclared, _, hbalanced, rfl, rfl⟩ := h
  have hrest := suffix_of_drop hdrop
  obtain ⟨hparams', hmid⟩ := spelled_of_params hparams
  obtain ⟨hresult', hmid'⟩ := spelled_of_result hresult
  obtain ⟨hflags, hbody⟩ := flags_lt_of_declarations (show (0 : UInt8) < 4 by decide) hdeclared
  have hhead := (((Taken.ident hident).trans hmid).trans hmid').trans hbody
  obtain ⟨head, hhead'⟩ := hhead.suffix.trans hrest
  refine ⟨fun hts => ?_, .function hhead'.symm rfl hbalanced ?_⟩
  · obtain ⟨hname, hword⟩ := exists_of_isId (hts.ident hrest hident) (by simpa using hid)
    rw [Bool.not_eq_true, Option.isSome_eq_false_iff, Option.isNone_iff_eq_none] at hnew
    have hts' := hts.of_suffix (suffix_of_cons hrest)
    conv => rhs; rw [hname]
    exact .function ⟨hword, hparams' hts', hresult' (hts'.of_suffix hmid.suffix),
      fun _ h => (nomatch h), fun _ h => (nomatch h), hflags⟩ rfl (hname ▸ hnew) ⟨head, hhead'⟩
  · rw [← hbalanced, Parser.balanced_form hform, hdrop]
    exact (hhead.balanced 0).symm

theorem step_of_field (h : Yields field d ts a d' ts') :
    (Lexed ts → FieldStep ts d d') ∧ FieldExtent ts d d' ts' := by
  simp only [field, yields_bind, yields_lift, gives_peek, gives_form] at h
  obtain ⟨_, _, _, ⟨⟨rfl, -⟩, rfl⟩, _, _, _, ⟨⟨rfl, rfl⟩, rfl⟩, h⟩ := h
  split at h
  next => exact step_of_classDecl h
  split at h
  next => exact step_of_importDecl h
  split at h
  next => exact step_of_record h
  split at h
  next hform => exact step_of_function (hform ▸ by decide) h
  next => exact absurd (yields_attempt.mp h).1 reject_ne_ok

/-- The drafts that the first reading of tokens goes through. -/
inductive Reading (tokens : List Token) : Draft → Prop
  | start : Reading tokens {}
  | step {ts : List Token} {d d' : Draft} (hd : Reading tokens d) (hts : ts <:+ tokens)
      (hstep : FieldStep ts d d') : Reading tokens d'

theorem reading_of_fields {tokens : List Token} {most : Nat} (htokens : Lexed tokens)
    (hts : ts <:+ tokens) (hd : Reading tokens d)
    (h : Yields (fields most) d ts a d' ts') : Reading tokens d' := by
  induction most generalizing d ts with
  | zero => exact absurd (yields_attempt.mp h).1 reject_ne_ok
  | succ most ih =>
    simp only [fields, yields_bind, yields_lift, gives_peek] at h
    obtain ⟨t, _, _, ⟨⟨rfl, -⟩, rfl⟩, h⟩ := h
    split at h
    next =>
      rw [(yields_lift.mp h).2] at hd
      exact hd
    next =>
      obtain ⟨_, r, mid, hfield, h⟩ := yields_bind.mp h
      obtain ⟨hstep, hmid⟩ := step_of_field hfield
      exact ih (hmid.suffix.trans hts) (.step hd hts (hstep (htokens.of_suffix hts))) h

/-- A unit is the word, then fields, and no token is left. -/
theorem fields_of_unit {tokens : List Token} (h : Yields unit d tokens a d' ts') :
    ts' = [] ∧ ∃ (x y : Token) (ts : List Token) (most : Nat), x.kind = .lparen ∧ y.kind = .ident ∧
      y.text = "unit" ∧ tokens = x :: y :: ts ∧
        Yields (fields most) d ts () d' [] := by
  simp only [unit, yields_bind, yields_lift, yields_getTokens, gives_expect,
    gives_keyword] at h
  obtain ⟨_, _, _, ⟨rfl, rfl, rfl⟩, x, _, _, ⟨⟨rfl, hx⟩, rfl⟩, _, _, ts, ⟨⟨y, rfl, hy, hword⟩, rfl⟩, _,
    r, mid, hfields, tokens', _, _, ⟨rfl, rfl, rfl⟩, h⟩ := h
  split at h
  next =>
    obtain ⟨-, rfl, rfl⟩ := yields_pure.mp h
    exact ⟨rfl, x, y, ts, _, hx, hy, hword, rfl, hfields⟩
  next => exact absurd (yields_attempt.mp h).1 reject_ne_ok

/-- **What the first reading leaves** is built field by field, and no token is left. -/
theorem reading_of_unit {tokens : List Token} (htokens : Lexed tokens)
    (h : Yields unit {} tokens a d ts') : Reading tokens d ∧ ts' = [] := by
  obtain ⟨rfl, x, y, ts, most, -, -, -, rfl, hfields⟩ := fields_of_unit h
  exact ⟨reading_of_fields htokens (suffix_of_cons (suffix_cons _ _)) .start hfields, rfl⟩

end Resumable.Assembly
