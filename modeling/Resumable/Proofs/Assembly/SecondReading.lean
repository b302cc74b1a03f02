import Resumable.Proofs.Assembly.FirstReading
import Resumable.Proofs.CodeUnit.Body

/-!
# The second reading of a listing

The items of a listed body give back its instructions, handlers and frames. Labels are resolved to the
instructions that they are named after, symbols are found by their identifiers, and strings come back
to their places because the pool is read in its own order.
-/

namespace Resumable

open List Assembly.Parser

/-- The instruction with the labels of a listing for its targets. -/
def Instr.spell : Instr → Labelled Text
  | .goto t => .goto (Listing.label t)
  | .branch test t => .branch test (Listing.label t)
  | .switch low ts d => .switch low (ts.map Listing.label) (Listing.label d)
  | i => .plain i

/-- The function that a listing gives back: its frames stand in the order of their instructions. -/
def Func.relisted (f : Func) : Func := { f with frames := Listing.frameTable f }

namespace Assembly

open BodyParser Listing Token

variable {rest : List Word} {ts : List Token} {u v : CodeUnit} {d : BodyDraft} {scope : Scope}
  {known known' : Nat} {locals t n : UInt32} {i : Instr} {f : Func}

/-! ## Labels -/

/-- The draft after some labels were used. -/
def Noted (d : BodyDraft) (targets : List UInt32) (d' : BodyDraft) : Prop :=
  ∃ refs : List LabelRef, refs.map LabelRef.name = targets.map Listing.label ∧
    d' = { d with refs := d.refs ++ refs }

theorem noted_nil (d : BodyDraft) : Noted d [] d := ⟨[], rfl, by rw [append_nil]⟩

theorem Noted.append {d d' d'' : BodyDraft} {targets targets' : List UInt32} (h : Noted d targets d')
    (h' : Noted d' targets' d'') : Noted d (targets ++ targets') d'' := by
  obtain ⟨refs, hrefs, rfl⟩ := h
  obtain ⟨refs', hrefs', rfl⟩ := h'
  refine ⟨refs ++ refs', by rw [map_append, map_append, hrefs, hrefs'], ?_⟩
  simp only [append_assoc]

theorem noted_singleton (d : BodyDraft) (t : UInt32) (line : Nat) :
    Noted d [t] { d with refs := d.refs ++ [⟨label t, line⟩] } := ⟨[⟨label t, line⟩], rfl, rfl⟩

theorem isId_label (t : UInt32) : isId (label t) = true := isId_append ("L" ++ index t)

theorem placeOf_label (t : UInt32) (line : Nat) :
    placeOf ⟨.ident, label t, line⟩ = .ok (.label ⟨label t, line⟩) := by
  rw [placeOf, if_pos (by simp [isId_label])]
  rfl

theorem branchTargetOf_label (t : UInt32) (line : Nat) :
    branchTargetOf ⟨.ident, label t, line⟩ = .ok ⟨label t, line⟩ := by
  rw [branchTargetOf, placeOf_label]
  rfl

theorem takes_branchTarget (hts : ts.map word = labelWord t :: rest) :
    ∃ d' ts', Yields branchTarget (v, d) ts (label t) (v, d') ts' ∧ Noted d [t] d' ∧
      ts'.map word = rest := by
  obtain ⟨line, ts', rfl, hts'⟩ := exists_of_words hts
  refine ⟨_, ts', ?_, noted_singleton d t line, hts'⟩
  rw [branchTarget, yields_lift_bind]
  refine ⟨_, _, gives_next.mpr rfl, ?_⟩
  refine Yields.bind (yields_attempt.mpr ⟨branchTargetOf_label t line, rfl, rfl⟩) ?_
  exact yields_use.mpr ⟨rfl, rfl, rfl⟩

theorem branchTargetsIn_labels {targets : List UInt32}
    (hts : ts.map word = targets.map labelWord ++ .closing :: rest) :
    ∃ refs ts', branchTargetsIn ts = .ok (refs, ts') ∧
      refs.map LabelRef.name = targets.map Listing.label ∧ ts'.map word = rest := by
  induction targets generalizing ts with
  | nil =>
    obtain ⟨line, ts', rfl, hts'⟩ := exists_of_words hts
    exact ⟨[], ts', rfl, rfl, hts'⟩
  | cons t targets ih =>
    obtain ⟨line, mid, rfl, hmid⟩ := exists_of_words hts
    obtain ⟨refs, ts', hrefs, hnames, hts'⟩ := ih hmid
    refine ⟨⟨label t, line⟩ :: refs, ts', ?_, by rw [map_cons, map_cons, hnames], hts'⟩
    show branchTargetsIn (⟨.ident, label t, line⟩ :: mid) = _
    rw [branchTargetsIn, if_neg (by simp), branchTargetOf_label, hrefs]
    rfl

theorem takes_uses (refs : List LabelRef) :
    Yields (refs.mapM use) (v, d) ts (refs.map LabelRef.name)
      (v, { d with refs := d.refs ++ refs }) ts := by
  induction refs generalizing d with
  | nil => exact yields_pure.mpr ⟨rfl, by rw [append_nil], rfl⟩
  | cons ref refs ih =>
    rw [mapM_cons]
    refine Yields.bind (yields_use.mpr ⟨rfl, rfl, rfl⟩) ?_
    refine ih.bind ?_
    refine yields_pure.mpr ⟨rfl, ?_, rfl⟩
    simp only [append_assoc, singleton_append]

/-! ## Strings -/

/-- The unit with the first strings of a pool. -/
def withPool (v : CodeUnit) (pool : List Text) (known : Nat) : CodeUnit :=
  { v with strings := pool.take known }

/-- A string that comes in its order is found, or added, where it stands in the pool. -/
theorem addString_withPool {pool : List Text} (hpool : pool.Nodup) {s : Text}
    (hn : item? pool n = some s) (horder : inOrder known [n] = some known') :
    (withPool v pool known).addString s = (n, withPool v pool known') := by
  have hget : pool[n.toNat]? = some s := hn
  obtain ⟨hlt, hs⟩ := List.getElem?_eq_some_iff.mp hget
  simp only [inOrder] at horder
  split at horder
  next hknown =>
    cases horder
    have hfound : (withPool v pool known).strings[n.toNat]? = some s := by
      rw [withPool, getElem?_take_of_lt hknown, hget]
    rw [CodeUnit.addString_of_getElem? (hpool.sublist (take_sublist _ _)) hfound,
      UInt32.ofNat_toNat]
  next =>
    split at horder
    next hnext =>
      cases horder
      subst hnext
      have hnew : s ∉ (withPool v pool n.toNat).strings := by
        intro hmem
        have hdrop : s ∈ pool.drop n.toNat := by
          rw [drop_eq_getElem_cons hlt, hs]
          exact mem_cons_self
        exact disjoint_take_drop hpool (Nat.le_refl _) hmem hdrop
      rw [CodeUnit.addString_of_not_mem hnew]
      have hlength : (withPool v pool n.toNat).strings.length = n.toNat :=
        length_take_of_le (Nat.le_of_lt hlt)
      rw [hlength, UInt32.ofNat_toNat]
      simp only [withPool, take_succ_eq_append_getElem hlt, hs]
    next => cases horder

/-! ## Instructions -/

theorem ofName?_name (op : Opcode) : Opcode.ofName? op.name = some op := by
  cases op <;> decide +kernel

theorem takes_index (hts : ts.map word = indexWord n :: rest) :
    ∃ ts', Parser.index.Gives ts n ts' ∧ ts'.map word = rest := reads_index n ts hts

/-- A symbol is found by its identifier. -/
theorem takes_callTarget {s : CodeUnit × BodyDraft}
    (himports : scope.imports = importTable u.symbols.length) (hn : ∃ x, item? u.symbols n = some x)
    (hts : ts.map word = .ident (symbolId n.toNat) :: rest) :
    ∃ ts', Yields (callTarget scope) s ts n s ts' ∧ ts'.map word = rest := by
  obtain ⟨line, ts', rfl, hts'⟩ := exists_of_words hts
  refine ⟨ts', ?_, hts'⟩
  obtain ⟨x, hx⟩ := hn
  have hlt : n.toNat < u.symbols.length := lt_of_getElem? hx
  have hlookup : scope.imports.lookup (symbolId n.toNat) = some n := by
    rw [himports, importTable, lookup_numbered symbolId_injective hlt rfl, UInt32.ofNat_toNat]
  rw [callTarget]
  refine Gives.lift_bind (gives_next.mpr rfl) ?_
  rw [if_neg (by simp [Word.ident])]
  dsimp only [Word.ident]
  rw [hlookup]
  exact yields_return

/-- **The operands of a listed instruction** are read back. -/
theorem takes_operands (hi : i.Refers u locals)
    (hpool : u.strings.Nodup) (horder : inOrder known i.string?.toList = some known')
    (himports : scope.imports = importTable u.symbols.length)
    (hts : ts.map word = operandWords u i ++ rest) :
    ∃ d' ts', Yields (operands scope i.opcode) (withPool v u.strings known, d) ts i.spell
        (withPool v u.strings known', d') ts' ∧ Noted d i.targets d' ∧ ts'.map word = rest := by
  -- An instruction without operands, and one whose operand is a string.
  have hplain {j : Instr} (hj : inOrder known [] = some known') :
      Yields (pure (.plain j) : BodyParser (Labelled Text)) (withPool v u.strings known, d) ts (.plain j)
        (withPool v u.strings known', d) ts := by
    cases hj
    exact yields_return
  have hstring {n : UInt32} {x : Text} {mid : List Token} (hn : item? u.strings n = some x)
      (hj : inOrder known [n] = some known') :
      Yields (string x) (withPool v u.strings known, d) mid n
        (withPool v u.strings known', d) mid := by
    have hadd := addString_withPool (v := v) hpool hn hj
    exact yields_string.mpr ⟨by rw [hadd], by rw [hadd], rfl⟩
  cases i with
  | nop | null | pop | dup | swap | raise | ret | retval => exact ⟨d, ts, hplain horder, noted_nil d, hts⟩
  | arith op =>
    cases op with
    | add | sub | mul | cmp => exact ⟨d, ts, hplain horder, noted_nil d, hts⟩
  | iconst c =>
    obtain ⟨ts', hint, hts'⟩ := reads_int 64 (by decide) c.le_toInt c.toInt_lt ts hts
    cases horder
    refine ⟨d, ts', ?_, noted_nil d, hts'⟩
    refine hint.lift_bind (yields_pure.mpr ⟨?_, rfl, rfl⟩)
    rw [Int64.ofInt_toInt]
    rfl
  | load n | store n | newrec n =>
    obtain ⟨ts', hindex, hts'⟩ := takes_index hts
    cases horder
    exact ⟨d, ts', hindex.lift_bind yields_return, noted_nil d, hts'⟩
  | recget n m =>
    obtain ⟨mid, hindex, hmid⟩ := takes_index hts
    obtain ⟨ts', hindex', hts'⟩ := takes_index hmid
    cases horder
    exact ⟨d, ts', hindex.lift_bind (hindex'.lift_bind yields_return), noted_nil d, hts'⟩
  | sconst n | checkcast n | instanceof n =>
    obtain ⟨x, hx⟩ := hi
    rw [operandWords, hx] at hts
    obtain ⟨line, ts', rfl, hts'⟩ := exists_of_words hts
    refine ⟨d, ts', ?_, noted_nil d, hts'⟩
    refine Gives.lift_bind (gives_expect.mpr ⟨rfl, rfl⟩) ?_
    exact (hstring hx horder).bind yields_return
  | invoke n =>
    obtain ⟨ts', hcall, hts'⟩ := takes_callTarget himports hi hts
    cases horder
    exact ⟨d, ts', hcall.bind yields_return, noted_nil d, hts'⟩
  | goto t =>
    obtain ⟨d', ts', htarget, hd, hts'⟩ := takes_branchTarget (d := d) hts
    cases horder
    exact ⟨d', ts', htarget.bind yields_return, hd, hts'⟩
  | branch test t =>
    obtain ⟨d', ts', htarget, hd, hts'⟩ := takes_branchTarget (d := d) hts
    cases horder
    cases test with
    | zero | nonzero | less | null | nonnull =>
      exact ⟨d', ts', htarget.bind yields_return, hd, hts'⟩
  | switch low targets t =>
    cases horder
    obtain ⟨ts₁, hlow, h₁⟩ := reads_int 32 (by decide) low.le_toInt low.toInt_lt ts hts
    obtain ⟨_, ts₂, rfl, h₂⟩ := exists_of_words h₁
    rw [append_eq, append_assoc] at h₂
    obtain ⟨refs, ts₃, hrefs, hnames, h₃⟩ := branchTargetsIn_labels h₂
    obtain ⟨d', ts', htarget, hd, hts'⟩ :=
      takes_branchTarget (d := { d with refs := d.refs ++ refs }) h₃
    refine ⟨d', ts', ?_, Noted.append ⟨refs, hnames, rfl⟩ hd, hts'⟩
    refine hlow.lift_bind ?_
    refine Gives.lift_bind (gives_expect.mpr ⟨rfl, rfl⟩) ?_
    refine Yields.bind (yields_getTokens.mpr ⟨rfl, rfl, rfl⟩) ?_
    refine Yields.bind (yields_attempt.mpr ⟨hrefs, rfl, rfl⟩) ?_
    refine yields_bind.mpr ⟨(), _, _, yields_setTokens.mpr ⟨rfl, rfl⟩, ?_⟩
    refine (takes_uses refs).bind ?_
    refine htarget.bind (yields_pure.mpr ⟨?_, rfl, rfl⟩)
    rw [Int32.ofInt_toInt, hnames]
    rfl

/-! ## Items -/

/-- The items that are left can be read, and give a unit and a draft with the property. -/
def Continues (scope : Scope) (s : CodeUnit × BodyDraft) (ts : List Token)
    (p : CodeUnit × BodyDraft → Prop) : Prop :=
  ∃ s' ts', Yields (BodyParser.items scope ts.length) s ts () s' ts' ∧ p s'

/-- More items may be allowed for. -/
theorem items_mono {most more : Nat} {s s' : CodeUnit × BodyDraft} {ts ts' : List Token}
    (hle : most ≤ more) (h : Yields (items scope most) s ts () s' ts') :
    Yields (items scope more) s ts () s' ts' := by
  induction most generalizing more s ts with
  | zero => exact absurd (yields_attempt.mp h).1 reject_ne_ok
  | succ most ih =>
    obtain ⟨more, rfl⟩ := Nat.exists_eq_succ_of_ne_zero (by omega : more ≠ 0)
    rw [items] at h ⊢
    obtain ⟨t, s₁, mid, hpeek, h⟩ := yields_bind.mp h
    refine yields_bind.mpr ⟨t, s₁, mid, hpeek, ?_⟩
    split at h
    next hclose => rwa [if_pos hclose]
    next hclose =>
      rw [if_neg hclose]
      obtain ⟨a, s₂, mid', hitem, h⟩ := yields_bind.mp h
      exact yields_bind.mpr ⟨a, s₂, mid', hitem, ih (by omega) h⟩

variable {s : CodeUnit × BodyDraft} {p : CodeUnit × BodyDraft → Prop}

theorem continues_closing (hts : ts.map word = .closing :: rest) (hp : p s) :
    Continues scope s ts p := by
  obtain ⟨line, ts', rfl, hts'⟩ := exists_of_words hts
  refine ⟨s, ts', ?_, hp⟩
  rw [length_cons, items]
  refine Yields.bind (yields_lift.mpr ⟨gives_peek.mpr ⟨rfl, _, rfl⟩, rfl⟩) ?_
  rw [if_pos (by rfl)]
  exact yields_lift.mpr ⟨gives_close.mpr ⟨_, rfl, rfl⟩, rfl⟩

/-- The production that reads an item with a first word. -/
def itemOf (scope : Scope) (form : Text) : BodyParser Unit :=
  if form = "label" then BodyParser.label
  else if form = "catch" then BodyParser.handler false
  else if form = "cleanup" then BodyParser.handler true
  else if form = "frame" then BodyParser.frame
  else BodyParser.instr scope

/-- An item is read by the production for its first word. -/
theorem continues_item {w : Word} {ws : List Word} {s' : CodeUnit × BodyDraft} {mid : List Token}
    (hw : w.kind ≠ .rparen)
    (hform : headForm (w :: ws ++ rest) ∈ (["label", "catch", "cleanup", "frame", ∅] : List Text))
    (hts : ts.map word = w :: ws ++ rest) (hmid : mid.map word = rest)
    (hitem : Yields (itemOf scope (headForm (w :: ws ++ rest))) s ts () s' mid)
    (h : Continues scope s' mid p) : Continues scope s ts p := by
  obtain ⟨s'', ts'', hread, hp⟩ := h
  refine ⟨s'', ts'', ?_, hp⟩
  have hformOf : formOf ts = headForm (w :: ws ++ rest) := by rw [formOf_eq, hts]
  have hlength : mid.length < ts.length := by
    have h := congrArg length hts
    rw [← hmid] at h
    simp only [length_map, length_append, length_cons] at h
    omega
  obtain ⟨line, ts₁, rfl, -⟩ := exists_of_words hts
  rw [length_cons, items]
  refine Yields.bind (yields_lift.mpr ⟨gives_peek.mpr ⟨rfl, _, rfl⟩, rfl⟩) ?_
  rw [if_neg (by exact hw)]
  refine yields_bind.mpr ⟨(), s', mid, ?_, items_mono (by simp at hlength; omega) hread⟩
  rw [item]
  refine Gives.lift_bind (gives_peek.mpr ⟨rfl, _, rfl⟩) ?_
  refine Gives.lift_bind (gives_form.mpr ⟨hformOf, rfl⟩) ?_
  rw [itemOf] at hitem
  generalize headForm (w :: ws ++ rest) = name at hform hitem ⊢
  simp only [mem_cons, not_mem_nil, or_false] at hform
  rcases hform with rfl | rfl | rfl | rfl | rfl <;> exact hitem

/-- Words that are read as items and lead to a unit and drafts with a property: whatever goes on from
all of these goes on from before the words. -/
def Passes (scope : Scope) (ws : List Word) (s : CodeUnit × BodyDraft) (v : CodeUnit)
    (goal : BodyDraft → Prop) : Prop :=
  ∀ {rest ts p}, ts.map word = ws ++ rest →
    (∀ d' mid, goal d' → mid.map word = rest → Continues scope (v, d') mid p) →
    Continues scope s ts p

theorem passes_nil {goal : BodyDraft → Prop} (hd : goal d) : Passes scope [] (v, d) v goal :=
  fun hts h => h d _ hd hts

/-- Rows of words are passed one by one. -/
theorem passes_flatMap {α : Type} {words : α → List Word} {todo : List α}
    {P : List α → BodyDraft → Prop}
    (h : ∀ done, ∀ x ∈ todo, ∀ d, P done d →
      Passes scope (words x) (v, d) v (P (done ++ [x]))) (done : List α) (hd : P done d) :
    Passes scope (todo.flatMap words) (v, d) v (P (done ++ todo)) := by
  induction todo generalizing done d with
  | nil => exact passes_nil (by rwa [append_nil])
  | cons x todo ih =>
    intro rest ts p hts hgo
    rw [flatMap_cons, append_assoc] at hts
    refine h done x mem_cons_self d hd hts fun d₁ mid₁ hd₁ hmid₁ => ?_
    rw [append_cons] at hgo
    exact ih (fun done x hx => h done x (mem_cons_of_mem _ hx)) _ hd₁ hmid₁ hgo

/-! ## Drafts of listed bodies -/

/-- The label before an instruction. -/
def labelId (pc : Nat) : Text := "$L" ++ Text.ofNat pc

theorem labelId_injective : Function.Injective labelId := fun _ _ h =>
  Text.ofNat_injective (Text.ext_bytes (append_cancel_left (congrArg Text.bytes h)))

/-- A place that is given by a label. -/
def Place.IsLabel (t : UInt32) (x : Place) : Prop :=
  ∃ line, x = .label ⟨Listing.label t, line⟩

/-- The form of a listed handler. -/
structure HandlerForm.Shows (h : Handler) (x : HandlerForm) : Prop where
  start : x.start.IsLabel h.start
  stop : x.stop.IsLabel h.stop
  target : x.target.IsLabel h.target
  cls : x.cls = h.cls
  region : x.region = h.region
  kind : x.kind = h.kind

/-- The draft of a body of which some handlers, frames, marks and instructions were read. -/
structure Drafted (labels : List UInt32) (hs : List Handler) (xs : List FrameEntry) (marked : Nat)
    (is : List Instr) (d : BodyDraft) : Prop where
  steps : d.steps = is.map Instr.spell
  marks : d.labels = numbered labelId (fun pc => UInt32.ofNat pc ∈ labels) marked
  refs : ∀ ref ∈ d.refs, ∃ t ∈ labels, ref.name = label t
  handlers : List.Forall₂ HandlerForm.Shows hs d.handlers
  frames : d.frames = xs

variable {labels : List UInt32} {hs : List Handler} {xs : List FrameEntry} {marked : Nat}
  {is : List Instr}

theorem drafted_start (labels : List UInt32) : Drafted labels [] [] 0 [] {} :=
  ⟨rfl, rfl, fun _ h => (nomatch h), .nil, rfl⟩

theorem Drafted.noted {d' : BodyDraft} {targets : List UInt32}
    (h : Drafted labels hs xs marked is d) (hd : Noted d targets d')
    (htargets : ∀ t ∈ targets, t ∈ labels) : Drafted labels hs xs marked is d' := by
  obtain ⟨refs, hrefs, rfl⟩ := hd
  refine { h with refs := fun ref href => ?_ }
  rcases mem_append.mp href with href | href
  · exact h.refs ref href
  · have hname : ref.name ∈ targets.map Listing.label := hrefs ▸ mem_map_of_mem href
    obtain ⟨t, ht, hname⟩ := mem_map.mp hname
    exact ⟨t, htargets t ht, hname.symm⟩

theorem takes_place (hts : ts.map word = labelWord t :: rest) :
    ∃ x d' ts', Yields place (v, d) ts x (v, d') ts' ∧ x.IsLabel t ∧ Noted d [t] d' ∧
      ts'.map word = rest := by
  obtain ⟨line, ts', rfl, hts'⟩ := exists_of_words hts
  refine ⟨_, _, ts', ?_, ⟨line, rfl⟩, noted_singleton d t line, hts'⟩
  rw [place]
  refine Gives.lift_bind (gives_next.mpr rfl) ?_
  refine Yields.bind (yields_attempt.mpr ⟨placeOf_label t line, rfl, rfl⟩) ?_
  refine Yields.bind (yields_use.mpr ⟨rfl, rfl, rfl⟩) ?_
  exact yields_return

/-- The class and the region of a listed handler. -/
theorem takes_handlerTail {x : Handler} (otherwise : UInt32)
    (hx : HandlerSpelled x.cls x.kind)
    (hkind : x.kind = Handler.catchKind ∨ x.kind = Handler.cleanupKind)
    (hts : ts.map word =
      (if x.kind = Handler.catchKind && !x.cls.isEmpty then [.ident x.cls] else []) ++
        (form "region" [indexWord x.region] ++ rest)) :
    ∃ mid ts', (handlerClass (x.kind = Handler.cleanupKind)).Gives ts x.cls mid ∧
      (handlerRegion otherwise).Gives mid x.region ts' ∧ ts'.map word = rest := by
  -- The rest is the same whether a class is named or not.
  have hregion {mid : List Token}
      (hmid : mid.map word = form "region" [indexWord x.region] ++ rest) :
      ∃ ts', (handlerRegion otherwise).Gives mid x.region ts' ∧ ts'.map word = rest := by
    have hform : formOf mid = "region" := by rw [formOf_eq, hmid]; rfl
    obtain ⟨_, _, ts₁, rfl, h₁⟩ := exists_of_form hmid
    obtain ⟨ts₂, hindex, h₂⟩ := reads_index x.region ts₁ h₁
    obtain ⟨_, ts', rfl, hts'⟩ := exists_of_words h₂
    refine ⟨ts', ?_, hts'⟩
    rw [handlerRegion]
    refine Gives.bind (gives_form.mpr ⟨hform, rfl⟩) ?_
    rw [if_pos rfl]
    simp only [gives_bind, gives_skip, gives_close, gives_pure, exists_const]
    exact ⟨_, rfl, _, _, hindex, _, ⟨_, rfl, rfl⟩, rfl, rfl⟩
  split at hts
  next hnamed =>
    simp only [Bool.and_eq_true, decide_eq_true_eq, Bool.not_eq_true'] at hnamed
    obtain ⟨line, mid, rfl, hmid⟩ := exists_of_words hts
    obtain ⟨ts', hgives, hts'⟩ := hregion hmid
    refine ⟨mid, ts', ?_, hgives, hts'⟩
    have hany : x.cls ≠ "any" := by
      rcases hx.named with h | h
      · rw [h] at hnamed
        exact absurd hnamed.2 (by decide)
      · exact h.2
    rw [handlerClass]
    refine Gives.bind (gives_ident?.mpr (.inl ⟨_, rfl, rfl, rfl⟩)) ?_
    have hcatch : ¬x.kind = Handler.cleanupKind := by rw [hnamed.1]; decide
    dsimp only
    rw [if_neg (by simpa using hcatch)]
    exact gives_pure.mpr ⟨if_neg hany, rfl⟩
  next hnamed =>
    obtain ⟨ts', hgives, hts'⟩ := hregion hts
    refine ⟨ts, ts', ?_, hgives, hts'⟩
    have hcls : x.cls = ∅ := by
      rcases hkind with h | h
      · rcases hx.named with h' | h'
        · exact h'
        · simp [h, h'.1.isEmpty_eq_false] at hnamed
      · exact hx.cleanup h
    obtain ⟨_, _, ts₁, rfl, -⟩ := exists_of_form hts
    rw [handlerClass]
    refine gives_bind.mpr ⟨none, _, gives_ident?.mpr (.inr ⟨rfl, rfl, ?_⟩), ?_⟩
    · rintro t rest ⟨⟩
      rintro ⟨⟩
    · exact gives_pure.mpr ⟨hcls.symm, rfl⟩

theorem passes_handler {x : Handler} (hx : HandlerSpelled x.cls x.kind)
    (hkind : x.kind = Handler.catchKind ∨ x.kind = Handler.cleanupKind)
    (hplaces : ∀ t ∈ [x.start, x.stop, x.target], t ∈ labels)
    (hd : Drafted labels hs xs marked is d) :
    Passes scope (handlerWords x) (v, d) v (Drafted labels (hs ++ [x]) xs marked is) := by
  intro rest ts p hts h
  have hword : headForm (handlerWords x ++ rest) =
      (if x.kind = Handler.cleanupKind then "cleanup" else "catch" : Text) := headForm_form ..
  have hts₀ := hts
  obtain ⟨_, _, ts₁, rfl, h₁⟩ := exists_of_form hts
  obtain ⟨start, d₂, ts₂, hstart, hshows, hnoted, h₂⟩ := takes_place (v := v) (d := d) h₁
  obtain ⟨stop, d₃, ts₃, hstop, hshows', hnoted', h₃⟩ := takes_place (v := v) (d := d₂) h₂
  obtain ⟨target, d₄, ts₄, htarget, hshows'', hnoted'', h₄⟩ := takes_place (v := v) (d := d₃) h₃
  rw [append_eq, append_assoc] at h₄
  obtain ⟨ts₅, ts₆, hcls, hregion, h₆⟩ :=
    takes_handlerTail (UInt32.ofNat (d₄.handlers.length + 1)) hx hkind h₄
  obtain ⟨_, mid, rfl, hmid⟩ := exists_of_words h₆
  have hd₄ : Drafted labels hs xs marked is d₄ := by
    refine hd.noted ((hnoted.append hnoted').append hnoted'') fun t ht => hplaces t ?_
    simpa using ht
  have hd' : Drafted labels (hs ++ [x]) xs marked is
      { d₄ with handlers := d₄.handlers ++
          [{ start, stop, target, cls := x.cls, region := x.region, kind := x.kind }] } :=
    ⟨hd₄.steps, hd₄.marks, hd₄.refs, rel_append hd₄.handlers
      (.cons ⟨hshows, hshows', hshows'', rfl, rfl, rfl⟩ .nil), hd₄.frames⟩
  refine continues_item (by rintro ⟨⟩) ?_ hts₀ hmid ?_ (h _ mid hd' hmid)
  · show headForm (handlerWords x ++ rest) ∈ _
    rw [hword]
    split <;> simp
  · show Yields (itemOf scope (headForm (handlerWords x ++ rest))) _ _ _ _ _
    have hitem : itemOf scope (if x.kind = Handler.cleanupKind then "cleanup" else "catch") =
        BodyParser.handler (x.kind = Handler.cleanupKind) := by
      split
      next hk => rw [decide_eq_true hk]; rfl
      next hk => rw [decide_eq_false hk]; rfl
    have hkind' : (if decide (x.kind = Handler.cleanupKind) = true then Handler.cleanupKind
        else Handler.catchKind) = x.kind := by
      rcases hkind with hk | hk <;> rw [hk] <;> rfl
    rw [hword, hitem, BodyParser.handler]
    simp only [hkind']
    refine yields_lift_bind.mpr ⟨(), _, gives_skip.mpr rfl, ?_⟩
    refine hstart.bind (hstop.bind ?_)
    refine htarget.bind (hcls.lift_bind ?_)
    refine Yields.bind (yields_draft.mpr ⟨rfl, rfl, rfl⟩) ?_
    refine hregion.lift_bind ?_
    refine yields_bind.mpr ⟨(), _, _, yields_modifyDraft.mpr ⟨rfl, rfl⟩, ?_⟩
    exact yields_lift.mpr ⟨gives_close.mpr ⟨_, rfl, rfl⟩, rfl⟩

theorem passes_frame {x : FrameEntry} (hx : x.Spelled) (hd : Drafted labels hs xs marked is d) :
    Passes scope (frameWords x) (v, d) v (Drafted labels hs (xs ++ [x]) marked is) := by
  intro rest ts p hts h
  have hts₀ := hts
  obtain ⟨_, _, ts₁, rfl, h₁⟩ := exists_of_form hts
  obtain ⟨ts₂, hinstr, h₂⟩ := takes_index h₁
  rw [append_eq, append_assoc] at h₂
  have hpart {name : Text} {tys : List Ty} {ws : List Word} {ts : List Token}
      (htys : ∀ t ∈ tys, t.Spelled) (hts : ts.map word = form name (typeWords tys) ++ ws) :
      ∃ ts', (framePart x.instr name).Gives ts tys ts' ∧ ts'.map word = ws := by
    have hform : formOf ts = name := by rw [formOf_eq, hts]; rfl
    obtain ⟨_, _, mid, rfl, hmid⟩ := exists_of_form hts
    obtain ⟨ts', htypes, hts'⟩ := reads_types htys hmid
    refine ⟨ts', ?_, hts'⟩
    rw [framePart]
    refine Gives.bind (gives_form.mpr ⟨hform, rfl⟩) ?_
    rw [if_pos rfl]
    exact gives_bind.mpr ⟨(), _, gives_skip.mpr rfl, htypes⟩
  obtain ⟨ts₃, hlocals, h₃⟩ := hpart hx.locals h₂
  obtain ⟨ts₄, hstack, h₄⟩ := hpart hx.stack h₃
  obtain ⟨_, mid, rfl, hmid⟩ := exists_of_words h₄
  have hd' : Drafted labels hs (xs ++ [x]) marked is { d with frames := d.frames ++ [x] } :=
    { hd with frames := congrArg (· ++ [x]) hd.frames }
  refine continues_item (by rintro ⟨⟩) ?_ hts₀ hmid ?_ (h _ mid hd' hmid)
  · show ("frame" : Text) ∈ _
    simp
  · show Yields BodyParser.frame _ _ _ _ _
    rw [BodyParser.frame]
    refine yields_lift_bind.mpr ⟨(), _, gives_skip.mpr rfl, ?_⟩
    refine hinstr.lift_bind (hlocals.lift_bind ?_)
    refine hstack.lift_bind ?_
    refine yields_bind.mpr ⟨(), _, _, yields_modifyDraft.mpr ⟨rfl, rfl⟩, ?_⟩
    exact yields_lift.mpr ⟨gives_close.mpr ⟨_, rfl, rfl⟩, rfl⟩

/-- The mark before an instruction, if there is one. -/
theorem passes_mark (hd : Drafted labels hs xs is.length is d) :
    Passes scope (markWords labels is.length) (v, d) v
      (Drafted labels hs xs (is.length + 1) is) := by
  intro rest ts p hts h
  unfold markWords at hts
  split at hts
  next hmem =>
    have hts₀ := hts
    obtain ⟨_, _, ts₁, rfl, h₁⟩ := exists_of_form hts
    obtain ⟨line, ts₂, rfl, h₂⟩ := exists_of_words h₁
    obtain ⟨_, mid, rfl, hmid⟩ := exists_of_words h₂
    have hlength : d.steps.length = is.length := by rw [hd.steps, length_map]
    have hd' : Drafted labels hs xs (is.length + 1) is
        { d with labels := d.labels ++ [(labelId is.length, UInt32.ofNat d.steps.length)] } := by
      refine { hd with marks := ?_ }
      rw [numbered_succ, if_pos (by simpa using hmem), hlength, ← hd.marks]
    refine continues_item (by rintro ⟨⟩) ?_ hts₀ hmid ?_ (h _ mid hd' hmid)
    · show ("label" : Text) ∈ _
      simp
    · show Yields BodyParser.label _ _ _ _ _
      have hnew : ¬(d.labels.any (·.1 = labelId is.length)) = true := by
        have hnone : d.labels.lookup (labelId is.length) = none := by
          rw [hd.marks]
          exact lookup_numbered_of_le labelId_injective (Nat.le_refl _)
        rw [lookup_eq_none_iff] at hnone
        rw [any_eq_true]
        rintro ⟨q, hq, hid⟩
        exact absurd (hnone q hq) (by simp [of_decide_eq_true hid])
      rw [BodyParser.label]
      refine yields_lift_bind.mpr ⟨(), _, gives_skip.mpr rfl, ?_⟩
      refine Gives.lift_bind (gives_expect.mpr ⟨rfl, rfl⟩) ?_
      refine Yields.bind (yields_draft.mpr ⟨rfl, rfl, rfl⟩) ?_
      refine yields_unless.mpr ⟨hnew, ?_⟩
      refine yields_bind.mpr ⟨(), _, _, yields_modifyDraft.mpr ⟨rfl, rfl⟩, ?_⟩
      exact yields_lift.mpr ⟨gives_close.mpr ⟨_, rfl, rfl⟩, rfl⟩
  next hmem =>
    refine h d ts { hd with marks := ?_ } hts
    rw [numbered_succ, if_neg (by simpa using hmem), append_nil]
    exact hd.marks

/-- An instruction is read behind its mark. -/
theorem passes_instr (hi : i.Refers u locals)
    (hpool : u.strings.Nodup) (horder : inOrder known i.string?.toList = some known')
    (himports : scope.imports = importTable u.symbols.length)
    (htargets : ∀ t ∈ i.targets, t ∈ labels) (hd : Drafted labels hs xs marked is d) :
    Passes scope (instrWords u i) (withPool v u.strings known, d) (withPool v u.strings known')
      (Drafted labels hs xs marked (is ++ [i])) := by
  intro rest ts p hts h
  have hts₀ := hts
  obtain ⟨line, ts₁, rfl, h₁⟩ := exists_of_words hts
  obtain ⟨d₂, mid, hoperands, hnoted, hmid⟩ :=
    takes_operands (v := v) (d := d) hi hpool horder himports h₁
  have hd₂ := hd.noted hnoted htargets
  have hd' : Drafted labels hs xs marked (is ++ [i]) { d₂ with steps := d₂.steps ++ [i.spell] } := by
    refine { hd₂ with steps := ?_ }
    rw [hd₂.steps, map_append]
    rfl
  have hform : headForm (instrWords u i ++ rest) = ∅ := headForm_of_ne (by rintro ⟨⟩)
  refine continues_item (by rintro ⟨⟩) ?_ hts₀ hmid ?_ (h _ mid hd' hmid)
  · show headForm (instrWords u i ++ rest) ∈ _
    rw [hform]
    simp
  · show Yields (itemOf scope (headForm (instrWords u i ++ rest))) _ _ _ _ _
    rw [hform]
    show Yields (BodyParser.instr scope) _ _ _ _ _
    rw [BodyParser.instr]
    refine Gives.lift_bind (gives_expect.mpr ⟨rfl, rfl⟩) ?_
    dsimp only [Word.ident]
    rw [ofName?_name]
    refine hoperands.bind ?_
    exact yields_modifyDraft.mpr ⟨rfl, rfl⟩

/-! ## Bodies -/

theorem continues_code (is : List Instr) {todo : List Instr}
    (hrefers : ∀ i ∈ todo, i.Refers u locals) (hpool : u.strings.Nodup)
    (horder : inOrder known (todo.filterMap Instr.string?) = some known')
    (himports : scope.imports = importTable u.symbols.length)
    (htargets : ∀ i ∈ todo, ∀ t ∈ i.targets, t ∈ labels)
    (hd : Drafted labels hs xs is.length is d)
    (hts : ts.map word = codeWords u labels is.length todo ++ .closing :: rest)
    (h : ∀ d' : BodyDraft, Drafted labels hs xs ((is ++ todo).length + 1) (is ++ todo) d' →
      p (withPool v u.strings known', d')) :
    Continues scope (withPool v u.strings known, d) ts p := by
  induction todo generalizing is d ts known with
  | nil =>
    cases horder
    refine passes_mark hd hts fun d' mid hd' hmid => ?_
    exact continues_closing hmid (h d' (by rwa [append_nil]))
  | cons i todo ih =>
    obtain ⟨hi, hrefers⟩ := forall_mem_cons.mp hrefers
    obtain ⟨hit, htargets⟩ := forall_mem_cons.mp htargets
    rw [codeWords, append_assoc, append_assoc] at hts
    have huses : (i :: todo).filterMap Instr.string? =
        i.string?.toList ++ todo.filterMap Instr.string? := by
      cases hs : i.string? <;> simp [hs]
    rw [huses, inOrder_append, Option.bind_eq_some_iff] at horder
    obtain ⟨mid, hfirst, horder⟩ := horder
    refine passes_mark hd hts fun d₁ ts₁ hd₁ h₁ => ?_
    refine passes_instr hi hpool hfirst himports hit hd₁ h₁ fun d₂ ts₂ hd₂ h₂ => ?_
    have hlength : is.length + 1 = (is ++ [i]).length := by simp
    rw [hlength] at hd₂ h₂
    refine ih _ hrefers horder htargets hd₂ h₂ fun d₃ hd₃ => h d₃ ?_
    rwa [append_assoc] at hd₃

/-! ## Resolution -/

/-- Every label of a listing leads to the instruction that it is named after. -/
theorem Drafted.labelPlace (hd : Drafted labels hs xs marked is d) (ht : t ∈ labels)
    (hlt : t.toNat < marked) (line : Nat) : d.labelPlace ⟨label t, line⟩ = .ok t := by
  have hlookup : d.labels.lookup (label t) = some t := by
    rw [hd.marks]
    refine (lookup_numbered (i := t.toNat) labelId_injective hlt ?_).trans ?_
    · rw [UInt32.ofNat_toNat]
      exact decide_eq_true ht
    · rw [UInt32.ofNat_toNat]
  rw [BodyDraft.labelPlace, hlookup]
  rfl

theorem resolve_spell {place : Text → Attempt UInt32}
    (h : ∀ t ∈ i.targets, place (label t) = .ok t) : i.spell.resolve place = .ok i := by
  cases i with
  | goto t | branch test t =>
    exact bind_eq_ok.mpr ⟨t, h t (mem_singleton_self t), rfl⟩
  | switch low ts t =>
    refine bind_eq_ok.mpr ⟨ts, mapM_eq_ok.mpr ?_, bind_eq_ok.mpr ⟨t, ?_, rfl⟩⟩
    · rw [forall₂_map_left_iff, forall₂_same]
      exact fun t' ht' => h t' (mem_append_left _ ht')
    · exact h t (mem_append_right _ (mem_singleton_self t))
  | _ => rfl

theorem Drafted.resolve (hd : Drafted labels hs xs marked is d)
    (hlabels : ∀ t ∈ labels, t.toNat < marked) (htargets : ∀ i ∈ is, ∀ t ∈ i.targets, t ∈ labels)
    (hplaces : ∀ x ∈ hs, ∀ t ∈ [x.start, x.stop, x.target], t ∈ labels) :
    d.resolve = .ok (is, hs) := by
  have hplace {t : UInt32} (ht : t ∈ labels) (line : Nat) := hd.labelPlace ht (hlabels t ht) line
  have hrefs : (d.refs.forM fun ref => do let _ ← d.labelPlace ref) = .ok () := by
    rw [forM_eq_ok]
    intro ref href
    obtain ⟨t, ht, hname⟩ := hd.refs ref href
    have href : ref = ⟨label t, ref.line⟩ := by rw [← hname]
    rw [href, hplace ht]
    rfl
  have hsteps : (d.steps.mapM fun s => s.resolve fun l => d.labelPlace ⟨l, 0⟩) = .ok is := by
    rw [mapM_eq_ok, hd.steps, forall₂_map_left_iff, forall₂_same]
    exact fun i hi => resolve_spell fun t ht => hplace (htargets i hi t ht) 0
  have hhandlers : d.handlers.mapM d.resolveHandler = .ok hs := by
    rw [mapM_eq_ok]
    refine (((forall₂_and_left _ _).mpr ⟨hplaces, hd.handlers⟩).imp fun x y hxy => ?_).flip
    obtain ⟨hx, hy⟩ := hxy
    obtain ⟨_, hstart⟩ := hy.start
    obtain ⟨_, hstop⟩ := hy.stop
    obtain ⟨_, htarget⟩ := hy.target
    show d.resolveHandler y = .ok x
    rw [BodyDraft.resolveHandler, hstart, hstop, htarget, hy.cls, hy.region, hy.kind]
    refine bind_eq_ok.mpr ⟨_, hplace (hx x.start (by simp)) _, ?_⟩
    refine bind_eq_ok.mpr ⟨_, hplace (hx x.stop (by simp)) _, ?_⟩
    exact bind_eq_ok.mpr ⟨_, hplace (hx x.target (by simp)) _, rfl⟩
  rw [BodyDraft.resolve, hrefs]
  show (do let is ← d.steps.mapM _; let handlers ← d.handlers.mapM d.resolveHandler; pure (is, handlers)) = _
  rw [hsteps, hhandlers]
  rfl

theorem neededLocals_le {params bound : Nat} (hparams : params ≤ bound)
    (h : ∀ i ∈ is, ∀ n, i.slot? = some n → n.toNat < bound) : neededLocals params is ≤ bound := by
  induction is generalizing params with
  | nil => exact hparams
  | cons i is ih =>
    obtain ⟨hi, his⟩ := forall_mem_cons.mp h
    refine ih ?_ his
    dsimp only
    split
    next n hslot => exact Nat.max_le.mpr ⟨hparams, hi n hslot⟩
    next => exact hparams

theorem mem_labelled_of_target (f : Func) :
    ∀ i ∈ is, ∀ t ∈ i.targets, t ∈ labelled f is :=
  fun i hi _ ht => mem_append_left _ (mem_flatMap.mpr ⟨i, hi, ht⟩)

theorem mem_labelled_of_place (is : List Instr) :
    ∀ x ∈ f.handlers, ∀ t ∈ [x.start, x.stop, x.target], t ∈ labelled f is :=
  fun x hx _ ht => mem_append_right _ (mem_flatMap.mpr ⟨x, hx, ht⟩)

/-- **The draft of a listed body** gives back the function. -/
theorem Drafted.finish (hbody : u.bodyOf f = .ok is) (hcode : f.code = Instr.encodeAll is)
    (hd : Drafted (labelled f is) f.handlers (frameTable f) (is.length + 1) is d) (v : CodeUnit) :
    d.finish v (funcHead f) (some f.maxLocals) (some f.maxStack) = .ok f.relisted := by
  obtain ⟨-, -, hparams, hinstrs, hhandlers⟩ := CodeUnit.bodyOf_eq_ok.mp hbody
  have hlabels : ∀ t ∈ labelled f is, t.toNat < is.length + 1 := by
    intro t ht
    rcases mem_append.mp ht with ht | ht
    · obtain ⟨i, hi, ht⟩ := mem_flatMap.mp ht
      exact Nat.lt_succ_of_lt ((hinstrs i hi).1 t ht)
    · obtain ⟨x, hx, ht⟩ := mem_flatMap.mp ht
      have hwithin := hhandlers x hx
      have hrange := UInt32.lt_iff_toNat_lt.mp hwithin.range
      have hstop := hwithin.stop
      have htarget := hwithin.target
      simp only [mem_cons, not_mem_nil, or_false] at ht
      rcases ht with rfl | rfl | rfl <;> omega
  have hneeded : neededLocals f.params.length is ≤ f.maxLocals.toNat :=
    neededLocals_le hparams fun i hi n hn =>
      UInt32.lt_iff_toNat_lt.mp ((hinstrs i hi).2.slot_lt hn)
  have hlocals : UInt32.ofNat (max (neededLocals f.params.length is) f.maxLocals.toNat) =
      f.maxLocals := by
    rw [Nat.max_eq_right hneeded, UInt32.ofNat_toNat]
  rw [BodyDraft.finish, hd.resolve hlabels (mem_labelled_of_target f) (mem_labelled_of_place is)]
  refine congrArg Except.ok ?_
  simp only [funcHead, Func.relisted, Option.elim_some, hlocals, ← hcode, hd.frames]

/-! ## Functions -/

/-- **The body of a listed function** is read back. -/
theorem complete_listed {pending : Pending} {index known known' : Nat}
    (hpool : u.strings.Nodup) (himports : scope.imports = importTable u.symbols.length)
    (hf : f.Spelled) (hframes : ∀ x ∈ frameTable f, x.Spelled) (hbody : u.bodyOf f = .ok is)
    (hcode : f.code = Instr.encodeAll is)
    (horder : inOrder known (is.filterMap Instr.string?) = some known')
    (hpending : pending.Awaits u f is index) (hv : v.functions[index]? = some (funcHead f)) :
    pending.complete scope (withPool v u.strings known) =
      .ok (withPool { v with functions := v.functions.set index f.relisted } u.strings known') := by
  obtain ⟨-, -, -, hinstrs, hhandlers⟩ := CodeUnit.bodyOf_eq_ok.mp hbody
  obtain ⟨rest, hwords⟩ := hpending.body
  unfold bodyWords at hwords
  rw [append_assoc, append_assoc] at hwords
  have hread : Continues scope (withPool v u.strings known, {}) pending.body fun s =>
      s.1 = withPool v u.strings known' ∧
        Drafted (labelled f is) f.handlers (frameTable f) (is.length + 1) is s.2 := by
    refine passes_flatMap (P := fun hs => Drafted (labelled f is) hs [] 0 [])
      (fun _ x hx _ => passes_handler (hf.handlers x hx) (hhandlers x hx).kind
        (mem_labelled_of_place is x hx)) [] (drafted_start _) hwords fun d₁ ts₁ hd₁ h₁ => ?_
    refine passes_flatMap (P := fun xs => Drafted (labelled f is) f.handlers xs 0 [])
      (fun _ x hx _ => passes_frame (hframes x hx)) [] hd₁ h₁ fun d₂ ts₂ hd₂ h₂ => ?_
    exact continues_code [] (fun i hi => (hinstrs i hi).2) hpool horder himports
      (mem_labelled_of_target f) hd₂ h₂ fun d₃ hd₃ => ⟨rfl, hd₃⟩
  obtain ⟨⟨w, d⟩, ts', hitems, hw, hd⟩ := hread
  subst hw
  have hitems' : Yields (items scope (pending.body.length + 1)) (withPool v u.strings known, {})
      pending.body () (withPool v u.strings known', d) ts' := items_mono (Nat.le_succ _) hitems
  refine bind_eq_ok.mpr ⟨funcHead f, ?_, Attempt.mapError_eq_ok_iff.mpr ?_⟩
  · rw [hpending.index, Attempt.ofOption_eq_ok]
    exact hv
  · refine bind_eq_ok.mpr ⟨_, hitems', bind_eq_ok.mpr ⟨f.relisted, ?_, ?_⟩⟩
    · rw [hpending.locals, hpending.stack]
      exact hd.finish hbody hcode _
    · rw [hpending.index]
      rfl

end Assembly

end Resumable
