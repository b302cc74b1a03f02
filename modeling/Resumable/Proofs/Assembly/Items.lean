import Resumable.Proofs.Assembly.Spelling
import Resumable.Proofs.CodeUnit.Reencoding

/-!
# The second reading of a unit

`ItemStep` says what an item of a body adds to the unit and to the draft of the body. An item takes
whole forms and other tokens, whatever the identifiers among them are.
-/

namespace Resumable

open List Assembly.Parser

/-- The class string that a cast names. -/
def Instr.cast? : Instr → Option UInt32
  | .checkcast n | .instanceof n => some n
  | _ => none

/-- The string that an instruction with labels names. -/
def Labelled.string? : Labelled Text → Option UInt32
  | .plain i => i.string?
  | _ => none

namespace Assembly

open BodyParser

/-- What the operands of an instruction add to the unit. -/
inductive OperandStep (u : CodeUnit) : Labelled Text → CodeUnit → Prop
  | nothing {step : Labelled Text} (h : step.string? = none) : OperandStep u step u
  | string {i : Instr} {s : Text} (hi : i.string? = some (u.addString s).1)
      (hs : i.cast?.isSome → IsIdent s) : OperandStep u (.plain i) (u.addString s).2
  | symbol {s : Symbol} (hs : s.Spelled) :
      OperandStep u (.plain (.invoke (u.addSymbol s).1)) (u.addSymbol s).2

/-- Drafts that differ in labels only. -/
structure SameBody (d d' : BodyDraft) : Prop where
  steps : d'.steps = d.steps
  handlers : d'.handlers = d.handlers
  frames : d'.frames = d.frames

/-- What one item adds to the unit and to the draft of a body. -/
inductive ItemStep (u : CodeUnit) (d : BodyDraft) : CodeUnit → BodyDraft → Prop
  | label {d' : BodyDraft} (hd : SameBody d d') : ItemStep u d u d'
  | handler {h : HandlerForm} {d' : BodyDraft} (hh : HandlerSpelled h.cls h.kind)
      (hd : SameBody { d with handlers := d.handlers ++ [h] } d') : ItemStep u d u d'
  | frame {x : FrameEntry} {d' : BodyDraft} (hx : x.Spelled)
      (hd : SameBody { d with frames := d.frames ++ [x] } d') : ItemStep u d u d'
  | instr {step : Labelled Text} {u' : CodeUnit} {d' : BodyDraft} (hu : OperandStep u step u')
      (hd : SameBody { d with steps := d.steps ++ [step] } d') : ItemStep u d u' d'

theorem SameBody.refl (d : BodyDraft) : SameBody d d := ⟨rfl, rfl, rfl⟩

theorem SameBody.trans {d d' d'' : BodyDraft} (h : SameBody d d') (h' : SameBody d' d'') :
    SameBody d d'' :=
  ⟨h'.steps.trans h.steps, h'.handlers.trans h.handlers, h'.frames.trans h.frames⟩

variable {ts ts' : List Token} {u u' : CodeUnit} {d d' : BodyDraft} {scope : Scope} {a : Unit}

/-! ### Operands -/

theorem same_of_use {ref : LabelRef} {name : Text}
    (h : Yields (use ref) (u, d) ts name (u', d') ts') :
    u' = u ∧ SameBody d d' ∧ ts' = ts := by
  obtain ⟨h, -, rfl⟩ := yields_use.mp h
  cases h
  exact ⟨rfl, ⟨rfl, rfl, rfl⟩, rfl⟩

theorem isAtom_of_placeOf {t : Token} {p : Place} (h : placeOf t = .ok p) : t.IsAtom := by
  unfold placeOf at h
  split at h
  next hk =>
    rw [Bool.and_eq_true, decide_eq_true_eq] at hk
    exact Token.isAtom_of_ident hk.1
  next =>
    obtain ⟨n, hn, -⟩ := bind_eq_ok.mp h
    exact isAtom_of_indexOf hn

theorem isAtom_of_branchTargetOf {t : Token} {ref : LabelRef}
    (h : branchTargetOf t = .ok ref) : t.IsAtom := by
  obtain ⟨p, hp, -⟩ := bind_eq_ok.mp h
  exact isAtom_of_placeOf hp

theorem same_of_branchTarget {name : Text}
    (h : Yields branchTarget (u, d) ts name (u', d') ts') :
    u' = u ∧ SameBody d d' ∧ Taken 0 ts ts' := by
  simp only [branchTarget, yields_bind, yields_lift, gives_next,
    yields_attempt] at h
  obtain ⟨t, _, mid, ⟨rfl, rfl⟩, ref, _, _, ⟨href, rfl, rfl⟩, h⟩ := h
  obtain ⟨rfl, hd, rfl⟩ := same_of_use h
  exact ⟨rfl, hd, .atom (isAtom_of_branchTargetOf href)⟩

theorem same_of_mapM_use {refs : List LabelRef} {names : List Text}
    (h : Yields (refs.mapM use) (u, d) ts names (u', d') ts') :
    u' = u ∧ SameBody d d' ∧ ts' = ts := by
  induction refs generalizing u d ts names with
  | nil =>
    obtain ⟨-, h, rfl⟩ := yields_pure.mp h
    cases h
    exact ⟨rfl, .refl _, rfl⟩
  | cons ref refs ih =>
    rw [mapM_cons] at h
    simp only [yields_bind, yields_pure, Prod.exists] at h
    obtain ⟨_, _, _, _, huse, _, _, _, _, hrest, -, h, rfl⟩ := h
    cases h
    obtain ⟨rfl, hd, rfl⟩ := same_of_use huse
    obtain ⟨rfl, hd', rfl⟩ := ih hrest
    exact ⟨rfl, hd.trans hd', rfl⟩

theorem taken_of_branchTargetsIn {refs : List LabelRef}
    (h : branchTargetsIn ts = .ok (refs, ts')) : Taken 1 ts ts' := by
  fun_induction branchTargetsIn ts generalizing refs with
  | case1 => cases h
  | case2 t rest hk =>
    cases h
    exact .closing hk
  | case3 t rest hk ih =>
    obtain ⟨ref, href, h⟩ := bind_eq_ok.mp h
    obtain ⟨⟨refs, rest'⟩, hrefs, h⟩ := bind_eq_ok.mp h
    cases h
    exact (Taken.atom (isAtom_of_branchTargetOf href)).trans (ih hrefs)

/-- What a call adds: the symbol of a function of the unit, if it names one. -/
theorem symbol_of_callTarget {n : UInt32}
    (h : Yields (callTarget scope) (u, d) ts n (u', d') ts') :
    ((∀ f ∈ u.functions, f.Spelled) → OperandStep u (.plain (.invoke n)) u') ∧ d' = d ∧
      Taken 0 ts ts' := by
  simp only [callTarget, yields_bind, yields_lift, gives_next] at h
  obtain ⟨t, _, mid, ⟨rfl, rfl⟩, h⟩ := h
  split at h
  next =>
    obtain ⟨hn, hs, rfl⟩ := yields_attempt.mp h
    cases hs
    exact ⟨fun _ => .nothing rfl, rfl, .atom (isAtom_of_indexOf hn)⟩
  next hk =>
  have hmid : Taken 0 (t :: mid) mid := .ident (Decidable.not_not.mp hk)
  split at h
  next i _ =>
    obtain ⟨-, hs, rfl⟩ := yields_pure.mp h
    cases hs
    exact ⟨fun _ => .nothing rfl, rfl, hmid⟩
  next =>
  split at h
  next k _ =>
    simp only [yields_bind, yields_unit, yields_attempt, yields_symbol] at h
    obtain ⟨_, _, _, ⟨rfl, rfl, rfl⟩, f, _, _, ⟨hf, rfl, rfl⟩, rfl, hs, rfl⟩ := h
    cases hs
    refine ⟨fun hu => ?_, rfl, hmid⟩
    have hf := hu f (mem_of_getElem? (Attempt.ofOption_eq_ok.mp hf))
    exact .symbol ⟨.inl rfl, hf.name, hf.params, hf.result⟩
  next => exact absurd (yields_attempt.mp h).1 reject_ne_ok

theorem step_of_operands {op : Opcode} {step : Labelled Text}
    (h : Yields (operands scope op) (u, d) ts step (u', d') ts') :
    ((∀ f ∈ u.functions, f.Spelled) → Lexed ts → OperandStep u step u') ∧ SameBody d d' ∧
      Taken 0 ts ts' := by
  -- An instruction without operands.
  have hplain {i : Instr} (hi : i.string? = none)
      (h : Yields (pure (.plain i) : BodyParser _) (u, d) ts step (u', d') ts') :
      OperandStep u step u' ∧ SameBody d d' ∧ Taken 0 ts ts' := by
    obtain ⟨rfl, hs, rfl⟩ := yields_pure.mp h
    cases hs
    exact ⟨.nothing hi, .refl _, .refl _⟩
  have hindex {i : UInt32 → Instr} (hi : ∀ n, (i n).string? = none)
      (h : Yields (do return .plain (i (← index)) : BodyParser _) (u, d) ts step (u', d') ts') :
      OperandStep u step u' ∧ SameBody d d' ∧ Taken 0 ts ts' := by
    simp only [yields_bind, yields_lift, yields_pure] at h
    obtain ⟨n, _, _, ⟨hn, rfl⟩, rfl, hs, rfl⟩ := h
    cases hs
    exact ⟨.nothing (hi n), .refl _, taken_of_index hn⟩
  have hbranch {b : Text → Labelled Text} (hb : ∀ n, (b n).string? = none)
      (h : Yields (do return b (← branchTarget) : BodyParser _) (u, d) ts step (u', d') ts') :
      OperandStep u step u' ∧ SameBody d d' ∧ Taken 0 ts ts' := by
    simp only [yields_bind, yields_pure, Prod.exists] at h
    obtain ⟨n, _, _, _, hn, rfl, hs, rfl⟩ := h
    cases hs
    obtain ⟨rfl, hd, htaken⟩ := same_of_branchTarget hn
    exact ⟨.nothing (hb n), hd, htaken⟩
  have hcast {i : UInt32 → Instr} (hi : ∀ n, (i n).string? = some n)
      (h : Yields (do
        let t ← expect .ident
        return .plain (i (← string t.text)) : BodyParser _) (u, d) ts step (u', d') ts') :
      (Lexed ts → OperandStep u step u') ∧ SameBody d d' ∧ Taken 0 ts ts' := by
    simp only [yields_bind, yields_lift, gives_expect, yields_string,
      yields_pure] at h
    obtain ⟨t, _, _, ⟨⟨rfl, hk⟩, rfl⟩, n, _, _, ⟨rfl, rfl, rfl⟩, rfl, hs, rfl⟩ := h
    cases hs
    exact ⟨fun hts => .string (hi _) fun _ => hts.ident (suffix_refl _) hk, .refl _, .ident hk⟩
  cases op with
  | iconst =>
    simp only [operands, yields_bind, yields_lift, yields_pure] at h
    obtain ⟨n, _, _, ⟨hn, rfl⟩, rfl, hs, rfl⟩ := h
    cases hs
    exact ⟨fun _ _ => .nothing rfl, .refl _, taken_of_int hn⟩
  | sconst =>
    simp only [operands, yields_bind, yields_lift, gives_expect,
      yields_string, yields_pure] at h
    obtain ⟨t, _, _, ⟨⟨rfl, hk⟩, rfl⟩, n, _, _, ⟨rfl, rfl, rfl⟩, rfl, hs, rfl⟩ := h
    cases hs
    exact ⟨fun _ _ => .string rfl fun hcast => (nomatch hcast), .refl _,
      .atom (by rw [Token.IsAtom, hk]; decide)⟩
  | switch =>
    rw [operands] at h
    simp only [↓yields_lift_bind, yields_bind, gives_expect, yields_getTokens, yields_setTokens,
      yields_attempt, yields_pure, Prod.exists, Prod.mk.injEq, and_assoc, exists_eq_left',
      exists_const, exists_and_left] at h
    obtain ⟨low, _, hlow, t, mid, rfl, ht, refs, rest, hrefs, names, _, _, _, hnames, name, _, _, _,
      hname, rfl, rfl, rfl, rfl⟩ := h
    obtain ⟨rfl, hd, rfl⟩ := same_of_mapM_use hnames
    obtain ⟨rfl, hd', htaken⟩ := same_of_branchTarget hname
    exact ⟨fun _ _ => .nothing rfl, hd.trans hd', ((taken_of_int hlow).trans
      (.opening ht (taken_of_branchTargetsIn hrefs))).trans htaken⟩
  | invoke =>
    simp only [operands, yields_bind, yields_pure, Prod.exists] at h
    obtain ⟨n, _, _, _, hn, rfl, hs, rfl⟩ := h
    cases hs
    obtain ⟨hstep, rfl, htaken⟩ := symbol_of_callTarget hn
    exact ⟨fun hu _ => hstep hu, .refl _, htaken⟩
  | recget =>
    simp only [operands, yields_bind, yields_lift, yields_pure] at h
    obtain ⟨n, _, _, ⟨hn, rfl⟩, n', _, _, ⟨hn', rfl⟩, rfl, hs, rfl⟩ := h
    cases hs
    exact ⟨fun _ _ => .nothing rfl, .refl _, (taken_of_index hn).trans (taken_of_index hn')⟩
  | load | store | newrec => exact (hindex (fun _ => rfl) h).imp_left fun h _ _ => h
  | goto | ifzero | ifnonzero | iflt | ifnull | ifnonnull =>
    exact (hbranch (fun _ => rfl) h).imp_left fun h _ _ => h
  | checkcast | instanceof => exact (hcast (fun _ => rfl) h).imp_left fun h _ => h
  | _ => exact (hplain rfl h).imp_left fun h _ _ => h

/-! ### Items -/

theorem step_of_instr (h : Yields (instr scope) (u, d) ts a (u', d') ts') :
    ((∀ f ∈ u.functions, f.Spelled) → Lexed ts → ItemStep u d u' d') ∧ Taken 0 ts ts' := by
  simp only [instr, yields_bind, yields_lift, gives_expect] at h
  obtain ⟨t, _, mid, ⟨⟨rfl, ht⟩, rfl⟩, h⟩ := h
  split at h
  next => exact absurd (yields_attempt.mp h).1 reject_ne_ok
  next op _ =>
    simp only [emit, yields_bind, yields_modifyDraft, Prod.exists,
      Prod.mk.injEq] at h
    obtain ⟨step, _, _, _, hstep, ⟨rfl, rfl⟩, rfl⟩ := h
    obtain ⟨hunit, hd, htaken⟩ := step_of_operands hstep
    refine ⟨fun hu hts => .instr (hunit hu (hts.of_suffix (suffix_cons t mid)))
      ⟨?_, hd.handlers, hd.frames⟩, (Taken.ident ht).trans htaken⟩
    exact congrArg (· ++ [step]) hd.steps

theorem step_of_label (hform : formOf ts ≠ ∅)
    (h : Yields label (u, d) ts a (u', d') ts') : ItemStep u d u' d' ∧ Taken 0 ts ts' := by
  simp only [label, ↓yields_lift_bind, yields_bind, yields_lift, gives_skip,
    gives_expect, yields_draft, yields_unless, yields_modifyDraft,
    gives_close, Prod.mk.injEq, and_assoc, exists_eq_left', exists_const, exists_and_left] at h
  obtain ⟨t, _, hdrop, ht, -, ⟨_, rfl, hlast⟩, rfl, rfl⟩ := h
  refine ⟨.label ⟨rfl, rfl, rfl⟩, .form hform ?_⟩
  rw [hdrop]
  exact (Taken.ident ht).trans (.closing hlast)

theorem same_of_place {p : Place} (h : Yields place (u, d) ts p (u', d') ts') :
    u' = u ∧ SameBody d d' ∧ Taken 0 ts ts' := by
  simp only [place, yields_bind, yields_lift, yields_attempt, gives_next] at h
  obtain ⟨t, _, mid, ⟨rfl, rfl⟩, p, _, _, ⟨hp, rfl, rfl⟩, h⟩ := h
  have hmid : Taken 0 (t :: mid) mid := .atom (isAtom_of_placeOf hp)
  split at h
  next =>
    simp only [yields_bind, yields_pure, Prod.exists, Prod.mk.injEq] at h
    obtain ⟨_, _, _, _, huse, -, ⟨rfl, rfl⟩, rfl⟩ := h
    obtain ⟨rfl, hd, rfl⟩ := same_of_use huse
    exact ⟨rfl, hd, hmid⟩
  next =>
    simp only [yields_pure, Prod.mk.injEq] at h
    obtain ⟨-, ⟨rfl, rfl⟩, rfl⟩ := h
    exact ⟨rfl, .refl _, hmid⟩

theorem spelled_of_handlerClass {cleanup : Bool} {cls : Text}
    (h : (handlerClass cleanup).Gives ts cls ts') :
    (Lexed ts → HandlerSpelled cls (if cleanup then Handler.cleanupKind else Handler.catchKind)) ∧
      Taken 0 ts ts' := by
  simp only [handlerClass, gives_bind, gives_ident?] at h
  obtain ⟨_, mid, ⟨t, rfl, rfl, hk⟩ | ⟨rfl, rfl, -⟩, h⟩ := h
  · cases cleanup with
    | true => exact absurd (gives_attempt.mp h).1 reject_ne_ok
    | false =>
      obtain ⟨rfl, rfl⟩ := gives_pure.mp h
      refine ⟨fun hts => ⟨?_, fun h => (nomatch h)⟩, .ident hk⟩
      split
      next => exact .inl rfl
      next hne => exact .inr ⟨hts.ident (suffix_refl _) hk, hne⟩
  · obtain ⟨rfl, rfl⟩ := gives_pure.mp h
    exact ⟨fun _ => ⟨.inl rfl, fun _ => rfl⟩, .refl _⟩

theorem taken_of_handlerRegion {otherwise n : UInt32}
    (h : (handlerRegion otherwise).Gives ts n ts') : Taken 0 ts ts' := by
  simp only [handlerRegion, gives_bind, gives_form] at h
  obtain ⟨_, _, ⟨rfl, rfl⟩, h⟩ := h
  split at h
  next hform =>
    simp only [gives_bind, gives_skip, gives_close, gives_pure] at h
    obtain ⟨_, _, rfl, n, _, hn, _, _, ⟨t, rfl, ht⟩, rfl, rfl⟩ := h
    exact .form (hform ▸ by decide) ((taken_of_index hn).trans (.closing ht))
  next =>
    obtain ⟨-, rfl⟩ := gives_pure.mp h
    exact .refl _

theorem step_of_handler {cleanup : Bool} (hform : formOf ts ≠ ∅)
    (h : Yields (handler cleanup) (u, d) ts a (u', d') ts') :
    (Lexed ts → ItemStep u d u' d') ∧ Taken 0 ts ts' := by
  simp only [handler, ↓yields_lift_bind, yields_bind, yields_lift, gives_skip,
    yields_draft, yields_modifyDraft, gives_close, Prod.exists,
    Prod.mk.injEq, and_assoc, exists_eq_left', exists_const, exists_and_left] at h
  obtain ⟨start, _, _, _, hstart, stop, _, _, _, hstop, target, _, _, _, htarget, cls, _, hcls, region,
    _, hregion, ⟨_, rfl, hlast⟩, rfl, rfl⟩ := h
  obtain ⟨rfl, hd₁, hs₁⟩ := same_of_place hstart
  obtain ⟨rfl, hd₂, hs₂⟩ := same_of_place hstop
  obtain ⟨rfl, hd₃, hs₃⟩ := same_of_place htarget
  have hd := (hd₁.trans hd₂).trans hd₃
  have hs := (hs₁.trans hs₂).trans hs₃
  obtain ⟨hspelled, hs₄⟩ := spelled_of_handlerClass hcls
  have hregion := (taken_of_handlerRegion hregion).trans (.closing hlast)
  refine ⟨fun hts => .handler (h := ⟨start, stop, target, cls, region, _⟩)
    (hspelled (hts.of_suffix (hs.suffix.trans (drop_suffix 2 ts)))) ⟨hd.steps, ?_, hd.frames⟩,
    .form hform ((hs.trans hs₄).trans hregion)⟩
  exact congrArg (· ++ _) hd.handlers

theorem spelled_of_framePart {instr : UInt32} {part : Text} {tys : List Ty} (hpart : part ≠ ∅)
    (h : (framePart instr part).Gives ts tys ts') :
    (Lexed ts → ∀ t ∈ tys, t.Spelled) ∧ Taken 0 ts ts' := by
  simp only [framePart, gives_bind, gives_form] at h
  obtain ⟨_, _, ⟨rfl, rfl⟩, h⟩ := h
  split at h
  next hform =>
    obtain ⟨_, mid, hskip, h⟩ := gives_bind.mp h
    cases gives_skip.mp hskip
    obtain ⟨hspelled, hrest⟩ := spelled_of_typesIn h
    exact ⟨fun hts => hspelled (hts.of_suffix (drop_suffix 2 _)), .form (hform ▸ hpart) hrest⟩
  next => exact absurd (gives_attempt.mp h).1 reject_ne_ok

theorem step_of_frame (hform : formOf ts ≠ ∅)
    (h : Yields frame (u, d) ts a (u', d') ts') :
    (Lexed ts → ItemStep u d u' d') ∧ Taken 0 ts ts' := by
  simp only [frame, ↓yields_lift_bind, yields_bind, yields_lift, gives_skip,
    yields_modifyDraft, gives_close, Prod.mk.injEq, and_assoc, exists_eq_left',
    exists_const, exists_and_left] at h
  obtain ⟨instr, _, hinstr, locals, _, hlocals, stack, _, hstack, ⟨_, rfl, hlast⟩, rfl, rfl⟩ := h
  have hs := taken_of_index hinstr
  obtain ⟨hlocals, hs₁⟩ := spelled_of_framePart (by decide) hlocals
  obtain ⟨hstack, hs₂⟩ := spelled_of_framePart (by decide) hstack
  refine ⟨fun hts => ?_, .form hform (((hs.trans hs₁).trans hs₂).trans (.closing hlast))⟩
  have hts := hts.of_suffix (hs.suffix.trans (drop_suffix 2 ts))
  exact .frame ⟨hlocals hts, hstack (hts.of_suffix hs₁.suffix)⟩ ⟨rfl, rfl, rfl⟩

theorem step_of_item (h : Yields (item scope) (u, d) ts a (u', d') ts') :
    ((∀ f ∈ u.functions, f.Spelled) → Lexed ts → ItemStep u d u' d') ∧ Taken 0 ts ts' := by
  simp only [item, yields_bind, yields_lift, gives_peek, gives_form] at h
  obtain ⟨_, _, _, ⟨⟨rfl, -⟩, rfl⟩, _, _, _, ⟨⟨rfl, rfl⟩, rfl⟩, h⟩ := h
  split at h
  next hform => exact (step_of_label (hform ▸ by decide) h).imp_left fun h _ _ => h
  split at h
  next hform => exact (step_of_handler (hform ▸ by decide) h).imp_left fun h _ => h
  split at h
  next hform => exact (step_of_handler (hform ▸ by decide) h).imp_left fun h _ => h
  split at h
  next hform => exact (step_of_frame (hform ▸ by decide) h).imp_left fun h _ => h
  split at h
  next => exact step_of_instr h
  next => exact absurd (yields_attempt.mp h).1 reject_ne_ok

/-! ### Bodies -/

theorem OperandStep.functions {step : Labelled Text} (h : OperandStep u step u') :
    u'.functions = u.functions := by
  cases h with
  | nothing _ => rfl
  | string _ _ => unfold CodeUnit.addString; split <;> rfl
  | symbol _ => unfold CodeUnit.addSymbol; split <;> rfl

theorem ItemStep.functions (h : ItemStep u d u' d') : u'.functions = u.functions := by
  cases h with
  | label _ | handler _ _ | frame _ _ => rfl
  | instr hu _ => exact hu.functions

/-- The units and drafts that the reading of a body goes through. -/
inductive BodyReading (u₀ : CodeUnit) : CodeUnit → BodyDraft → Prop
  | start : BodyReading u₀ u₀ {}
  | step {u u' : CodeUnit} {d d' : BodyDraft} (hd : BodyReading u₀ u d) (hstep : ItemStep u d u' d') :
      BodyReading u₀ u' d'

/-- **What the reading of a body leaves** is built item by item. -/
theorem reading_of_items {most : Nat} {u₀ : CodeUnit}
    (hu : ∀ f ∈ u.functions, f.Spelled) (hts : Lexed ts) (hd : BodyReading u₀ u d)
    (h : Yields (items scope most) (u, d) ts a (u', d') ts') : BodyReading u₀ u' d' := by
  induction most generalizing u d ts with
  | zero => exact absurd (yields_attempt.mp h).1 reject_ne_ok
  | succ most ih =>
    simp only [items, yields_bind, yields_lift, gives_peek] at h
    obtain ⟨t, _, _, ⟨⟨rfl, -⟩, rfl⟩, h⟩ := h
    split at h
    next =>
      cases (yields_lift.mp h).2
      exact hd
    next =>
      obtain ⟨_, ⟨u₁, d₁⟩, mid, hitem, h⟩ := yields_bind.mp h
      obtain ⟨hstep, hmid⟩ := step_of_item hitem
      have hstep := hstep hu hts
      exact ih (hstep.functions ▸ hu) (hts.of_suffix hmid.suffix) (.step hd hstep) h

end Assembly

end Resumable
