import Resumable.Proofs.Assembly.Rendering

/-!
# Reading words

What the productions of assembly make of the words of a listing. `Parser.Reads p ws a rest` says that a
parser takes the words `ws` and gives `a`, when `rest` follows; some productions look at what follows to
find their end.
-/

namespace Resumable

open List Assembly.Parser

namespace Assembly

open Token

variable {ws : List Word} {w : Word}

open Listing

/-! ## Tokens and words -/

/-- The first word of the form at the front. -/
def headForm : List Word → Text
  | a :: b :: _ => if a.kind = .lparen && b.kind = .ident then b.text else ∅
  | _ => ∅

theorem formOf_eq (ts : List Token) : formOf ts = headForm (ts.map word) := by
  match ts with
  | [] | [_] | _ :: _ :: _ => rfl

@[simp] theorem headForm_form (name : Text) (ws rest : List Word) :
    headForm (form name ws ++ rest) = name := rfl

theorem headForm_of_ne {rest : List Word} (h : w.kind ≠ .lparen) :
    headForm (w :: rest) = ∅ := by
  cases rest with
  | nil => rfl
  | cons => simp [headForm, h]

/-- The parser takes the words `ws` and gives `a`, when `rest` follows. -/
def Parser.Reads {α : Type} (p : Parser α) (ws : List Word) (a : α) (rest : List Word) : Prop :=
  ∀ ts : List Token, ts.map Token.word = ws ++ rest →
    ∃ ts', p.Gives ts a ts' ∧ ts'.map Token.word = rest

/-- A word at the front, which stands on some line. -/
theorem exists_of_words {ts : List Token} (h : ts.map word = w :: ws) :
    ∃ n ts', ts = ⟨w.kind, w.text, n⟩ :: ts' ∧ ts'.map word = ws := by
  obtain ⟨t, ts', rfl, rfl, hts'⟩ := map_eq_cons_iff.mp h
  exact ⟨t.line, ts', rfl, hts'⟩

variable {rest : List Word}

theorem exists_of_form {ts : List Token} {name : Text}
    (h : ts.map word = form name ws ++ rest) :
    ∃ m n ts', ts = ⟨.lparen, "(", m⟩ :: ⟨.ident, name, n⟩ :: ts' ∧
      ts'.map word = ws ++ .closing :: rest := by
  obtain ⟨m, ts₁, rfl, h₁⟩ := exists_of_words h
  obtain ⟨n, ts₂, rfl, h₂⟩ := exists_of_words h₁
  refine ⟨m, n, ts₂, rfl, h₂.trans ?_⟩
  exact append_assoc ws [.closing] rest

/-! ## Small productions -/

theorem indexOf_index (n : UInt32) (line : Nat) : indexOf ⟨.number, index n, line⟩ = .ok n := by
  have hread : Numeral.nat 32 (index n) = .ok n.toNat := Numeral.nat_ofNat n.toNat_lt
  rw [indexOf, if_pos rfl]
  dsimp only
  rw [hread]
  exact congrArg Except.ok UInt32.ofNat_toNat

theorem reads_index (n : UInt32) : Parser.index.Reads [indexWord n] n rest := by
  intro ts hts
  obtain ⟨line, ts', rfl, hts'⟩ := exists_of_words hts
  refine ⟨ts', ?_, hts'⟩
  simp only [Parser.index, gives_bind, gives_next, gives_attempt]
  exact ⟨_, ts', rfl, indexOf_index n line, rfl⟩

theorem reads_int (bits : Nat) {v : Int} (hbits : 0 < bits) (hlow : -2 ^ (bits - 1) ≤ v)
    (hhigh : v < 2 ^ (bits - 1)) : (int bits).Reads [.number (Text.ofInt v)] v rest := by
  intro ts hts
  obtain ⟨line, ts', rfl, hts'⟩ := exists_of_words hts
  refine ⟨ts', ?_, hts'⟩
  have hread : Numeral.int bits (Word.number (Text.ofInt v)).text = .ok v :=
    Numeral.int_ofInt hbits hlow hhigh
  simp only [int, gives_bind, gives_expect]
  refine ⟨_, ts', ⟨rfl, rfl⟩, ?_⟩
  dsimp only
  rw [hread]
  exact gives_pure.mpr ⟨rfl, rfl⟩

theorem typeOf_text {t : Ty} (ht : t.Spelled) (line : Nat) :
    typeOf ⟨.ident, t.text, line⟩ = .ok t := by
  rw [typeOf, if_neg (by simp), if_neg (by simp [ht.notId])]
  exact congrArg Except.ok ht.denoted

theorem reads_types {tys : List Ty} (htys : ∀ t ∈ tys, t.Spelled) {ts : List Token}
    (hts : ts.map word = typeWords tys ++ .closing :: rest) :
    ∃ ts', Parser.types.Gives ts tys ts' ∧ ts'.map word = rest := by
  induction tys generalizing ts with
  | nil =>
    obtain ⟨line, ts', rfl, hts'⟩ := exists_of_words hts
    exact ⟨ts', rfl, hts'⟩
  | cons t tys ih =>
    obtain ⟨ht, htys⟩ := forall_mem_cons.mp htys
    obtain ⟨line, mid, rfl, hmid⟩ := exists_of_words hts
    obtain ⟨ts', hgives, hts'⟩ := ih htys hmid
    refine ⟨ts', ?_, hts'⟩
    have hrest : typesIn mid = .ok (tys, ts') := hgives
    show typesIn (⟨.ident, t.text, line⟩ :: mid) = .ok (t :: tys, ts')
    rw [typesIn, if_neg (by simp), typeOf_text ht, hrest]
    rfl

theorem reads_params {tys : List Ty} (htys : ∀ t ∈ tys, t.Spelled) (hrest : headForm rest ≠ "param") :
    params.Reads (if tys.isEmpty then [] else form "param" (typeWords tys)) tys rest := by
  intro ts hts
  simp only [params, gives_bind, gives_form, formOf_eq, and_assoc,
    exists_and_left, exists_eq_left']
  split at hts
  next hempty =>
    obtain rfl := List.isEmpty_iff.mp hempty
    refine ⟨ts, ?_, hts⟩
    rw [hts, nil_append, if_neg hrest]
    exact gives_pure.mpr ⟨rfl, rfl⟩
  next =>
    rw [hts, headForm_form, if_pos rfl]
    obtain ⟨_, _, mid, rfl, hmid⟩ := exists_of_form hts
    obtain ⟨ts', hgives, hts'⟩ := reads_types htys hmid
    exact ⟨ts', gives_bind.mpr ⟨(), mid, gives_skip.mpr rfl, hgives⟩, hts'⟩

theorem reads_result {ty : Ty} (hty : ty.Spelled) (hrest : headForm rest ≠ "result") :
    result.Reads (if ty = .void then [] else form "result" [.ident ty.text]) ty rest := by
  intro ts hts
  simp only [result, gives_bind, gives_form, formOf_eq, and_assoc,
    exists_and_left, exists_eq_left']
  split at hts
  next hvoid =>
    refine ⟨ts, ?_, hts⟩
    rw [hts, nil_append, if_neg hrest, hvoid]
    exact gives_pure.mpr ⟨rfl, rfl⟩
  next =>
    rw [hts, headForm_form, if_pos rfl]
    obtain ⟨_, _, mid, rfl, hmid⟩ := exists_of_form hts
    obtain ⟨line, mid', rfl, hmid'⟩ := exists_of_words hmid
    obtain ⟨line', ts', rfl, hts'⟩ := exists_of_words hmid'
    refine ⟨ts', ?_, hts'⟩
    simp only [gives_bind, gives_skip, type, gives_next,
      gives_attempt, gives_close, gives_pure]
    exact ⟨(), _, rfl, ty, _, ⟨_, _, rfl, typeOf_text hty line, rfl⟩, (), _, ⟨_, rfl, rfl⟩, rfl, rfl⟩

/-- What may follow a signature. -/
structure AfterSignature (rest : List Word) : Prop where
  notParam : headForm rest ≠ "param"
  notResult : headForm rest ≠ "result"

theorem reads_signature {params : List Ty} {result : Ty} (hparams : ∀ t ∈ params, t.Spelled)
    (hresult : result.Spelled) (hrest : AfterSignature rest) {ts : List Token}
    (hts : ts.map word = signatureWords params result ++ rest) :
    ∃ mid ts', Parser.params.Gives ts params mid ∧ Parser.result.Gives mid result ts' ∧
      ts'.map word = rest := by
  have hhead : headForm ((if result = .void then [] else form "result" [.ident result.text]) ++ rest) ≠
      "param" := by
    split
    · exact hrest.notParam
    · rw [headForm_form]
      decide
  rw [signatureWords, append_assoc] at hts
  obtain ⟨mid, hgives, hmid⟩ := reads_params hparams hhead ts hts
  obtain ⟨ts', hgives', hts'⟩ := reads_result hresult hrest.notResult mid hmid
  exact ⟨mid, ts', hgives, hgives', hts'⟩

/-! ## Fields of a unit -/

theorem IsIdent.isEmpty_eq_false {t : Text} (h : IsIdent t) : t.isEmpty = false := by
  cases hempty : t.isEmpty with
  | false => rfl
  | true =>
    obtain rfl : t = ∅ := Text.ext_bytes (List.isEmpty_iff.mp hempty)
    exact absurd h (by decide +kernel)

theorem isId_append (t : Text) : isId ("$" ++ t) = true := by
  simp [isId, Text.startsWith]

variable {d : Draft} {ts : List Token}

theorem takes_classDecl {c : ClassDecl} (hc : c.Spelled)
    (hts : ts.map word = classWords c ++ rest) :
    ∃ ts', Yields DraftParser.classDecl d ts ()
        { d with unit.classes := d.unit.classes ++ [c] } ts' ∧ ts'.map word = rest := by
  obtain ⟨_, _, ts₁, rfl, h₁⟩ := exists_of_form hts
  obtain ⟨_, ts₂, rfl, h₂⟩ := exists_of_words h₁
  simp only [DraftParser.classDecl, ↓yields_lift_bind, yields_bind, yields_lift, gives_skip,
    gives_expect, gives_ident?, yields_modify, gives_close, and_assoc,
    exists_eq_left', exists_const, exists_and_left]
  rcases hc.super with hsuper | ⟨hsuper, hobject⟩
  · have hempty : c.super.isEmpty = true := by rw [hsuper]; rfl
    rw [hempty] at h₂
    obtain ⟨_, ts', rfl, hts'⟩ := exists_of_words h₂
    refine ⟨ts', ⟨_, _, rfl, rfl, none, _, .inr ⟨rfl, rfl, ?_⟩, ⟨_, rfl, rfl⟩, ?_⟩, hts'⟩
    · rintro t rest ⟨⟩
      rintro ⟨⟩
    · rw [← hsuper]
      rfl
  · rw [hsuper.isEmpty_eq_false] at h₂
    obtain ⟨_, ts₃, rfl, h₃⟩ := exists_of_words h₂
    obtain ⟨_, ts', rfl, hts'⟩ := exists_of_words h₃
    refine ⟨ts', ⟨_, _, rfl, rfl, some _, _, .inl ⟨_, rfl, rfl, rfl⟩, ⟨_, rfl, rfl⟩, ?_⟩, hts'⟩
    simp only [Word.ident, hobject, ↓reduceIte]

theorem takes_importDecl {i : Nat} {s : Symbol} (hs : s.Spelled)
    (hts : ts.map word = symbolWords i s ++ rest)
    (hnew : d.scope.imports.lookup (symbolId i) = none) :
    ∃ ts', Yields DraftParser.importDecl d ts ()
        { d with
          unit := (d.unit.addSymbol s).2
          scope.imports := d.scope.imports ++ [(symbolId i, (d.unit.addSymbol s).1)] } ts' ∧
      ts'.map word = rest := by
  obtain ⟨_, _, ts₁, rfl, h₁⟩ := exists_of_form hts
  obtain ⟨_, ts₂, rfl, h₂⟩ := exists_of_words h₁
  obtain ⟨_, ts₃, rfl, h₃⟩ := exists_of_words h₂
  obtain ⟨_, ts₄, rfl, h₄⟩ := exists_of_words h₃
  have hafter : AfterSignature (.closing :: rest) := by
    constructor <;> rw [headForm_of_ne (by decide)] <;> decide
  obtain ⟨ts₅, ts₆, hparams, hresult, h₆⟩ := reads_signature hs.params hs.result hafter h₄
  obtain ⟨_, ts', rfl, hts'⟩ := exists_of_words h₆
  refine ⟨ts', ?_, hts'⟩
  simp only [DraftParser.importDecl, ↓yields_lift_bind, yields_bind, yields_lift, gives_skip,
    gives_expect, yields_modify, gives_close, yields_unless, yields_get, and_assoc,
    exists_eq_left', exists_const, exists_and_left]
  have howner : (if ownerText s = "." then ∅ else ownerText s) = s.owner := by
    rcases hs.owner with howner | ⟨howner, hdot⟩
    · simp [ownerText, howner, Text.isEmpty]
    · simp [ownerText, howner.isEmpty_eq_false, hdot]
  refine ⟨_, _, rfl, rfl, ?_, ?_, _, _, rfl, rfl, _, _, rfl, rfl, _, _, hparams, _, _, hresult,
    ⟨_, rfl, rfl⟩, ?_⟩
  · have hid : isId (symbolId i) = true := isId_append ("sym" ++ Text.ofNat i)
    show ¬(!isId (symbolId i)) = true
    simp [hid]
  · show ¬(d.scope.imports.lookup (symbolId i)).isSome = true
    simp [hnew]
  · have hsymbol : ({ owner := if ownerText s = "." then ∅ else ownerText s, name := s.name
                      params := s.params, result := s.result } : Symbol) = s := by rw [howner]
    exact congrArg (fun s' => { d with
      unit := (d.unit.addSymbol s').2
      scope.imports := d.scope.imports ++ [(symbolId i, (d.unit.addSymbol s').1)] }) hsymbol

theorem takes_record {l : Layout} (hl : l.Spelled) (hts : ts.map word = layoutWords l ++ rest) :
    ∃ ts', Yields DraftParser.record d ts ()
        { d with unit.records := d.unit.records ++ [l] } ts' ∧ ts'.map word = rest := by
  obtain ⟨_, _, ts₁, rfl, h₁⟩ := exists_of_form hts
  obtain ⟨_, ts₂, rfl, h₂⟩ := exists_of_words h₁
  obtain ⟨ts₃, hindex, h₃⟩ := reads_index l.point ts₂ h₂
  have hform : formOf ts₃ = "fields" := by rw [formOf_eq, h₃]; rfl
  obtain ⟨_, _, ts₄, rfl, h₄⟩ := exists_of_form h₃
  obtain ⟨ts₅, htypes, h₅⟩ := reads_types hl.fields h₄
  obtain ⟨_, ts', rfl, hts'⟩ := exists_of_words h₅
  refine ⟨ts', ?_, hts'⟩
  simp only [DraftParser.record, ↓yields_lift_bind, yields_bind, yields_lift, gives_skip,
    gives_expect, yields_modify, gives_close, yields_unless, yields_get,
    gives_form, and_assoc, exists_eq_left', exists_const, exists_and_left]
  exact ⟨_, _, rfl, rfl, _, _, hindex, by simp [hform], _, _, htypes, ⟨_, rfl, rfl⟩, rfl⟩

/-! ## Balance -/

/-- Words whose parentheses match. -/
def Flat (ws : List Word) : Prop :=
  ∀ (rest : List Word) (ts : List Token) (depth : Nat), ts.map Token.word = ws ++ rest → 0 < depth →
    ∃ ts', ts'.map Token.word = rest ∧ Parser.balanced depth ts = Parser.balanced depth ts'

theorem flat_nil : Flat [] := fun _ ts _ hts _ => ⟨ts, hts, rfl⟩

theorem Flat.append {ws vs : List Word} (hws : Flat ws) (hvs : Flat vs) : Flat (ws ++ vs) := by
  intro rest ts depth hts hdepth
  rw [append_assoc] at hts
  obtain ⟨mid, hmid, hbalanced⟩ := hws _ _ _ hts hdepth
  obtain ⟨ts', hts', hbalanced'⟩ := hvs _ _ _ hmid hdepth
  exact ⟨ts', hts', hbalanced.trans hbalanced'⟩

theorem flat_singleton (hopen : w.kind ≠ .lparen) (hclose : w.kind ≠ .rparen) :
    Flat [w] := by
  intro rest ts depth hts _
  obtain ⟨_, ts', rfl, hts'⟩ := exists_of_words hts
  refine ⟨ts', hts', ?_⟩
  rw [balanced]
  split
  · contradiction
  · contradiction
  · rfl

theorem flat_ident (t : Text) : Flat [.ident t] := flat_singleton (by rintro ⟨⟩) (by rintro ⟨⟩)

theorem flat_number (t : Text) : Flat [.number t] := flat_singleton (by rintro ⟨⟩) (by rintro ⟨⟩)

theorem flat_flatMap {α : Type} {words : α → List Word} {as : List α} (h : ∀ a ∈ as, Flat (words a)) :
    Flat (as.flatMap words) := by
  induction as with
  | nil => exact flat_nil
  | cons a as ih =>
    obtain ⟨ha, has⟩ := forall_mem_cons.mp h
    rw [flatMap_cons]
    exact ha.append (ih has)

theorem flat_map {α : Type} {word : α → Word} (h : ∀ a, Flat [word a]) (as : List α) :
    Flat (as.map word) := by
  rw [map_eq_flatMap]
  exact flat_flatMap fun a _ => h a

theorem Flat.parens (h : Flat ws) : Flat (.opening :: (ws ++ [.closing])) := by
  intro rest ts depth hts hdepth
  obtain ⟨_, ts₁, rfl, h₁⟩ := exists_of_words hts
  obtain ⟨ts₂, h₂, hbalanced⟩ := h _ _ _ (h₁.trans (append_assoc ..)) (Nat.succ_pos depth)
  obtain ⟨_, ts', rfl, hts'⟩ := exists_of_words h₂
  refine ⟨ts', hts', hbalanced.trans ?_⟩
  show (if depth + 1 ≤ 1 then _ else _) = _
  rw [if_neg (by omega)]
  rfl

theorem Flat.form (name : Text) (h : Flat ws) : Flat (Listing.form name ws) :=
  ((flat_ident name).append h).parens

/-- A form at the front ends where its parenthesis is closed. -/
theorem balanced_form {name : Text} (h : Flat ws)
    (hts : ts.map word = Listing.form name ws ++ rest) :
    ∃ ts', ts'.map word = rest ∧ balanced 0 ts = .ok ts' := by
  obtain ⟨_, _, ts₁, rfl, h₁⟩ := exists_of_form hts
  obtain ⟨ts₂, h₂, hbalanced⟩ := h _ _ _ h₁ Nat.one_pos
  obtain ⟨_, ts', rfl, hts'⟩ := exists_of_words h₂
  exact ⟨ts', hts', hbalanced⟩

theorem flat_types (tys : List Ty) : Flat (typeWords tys) := by
  unfold typeWords
  exact flat_map (fun t => flat_ident t.text) tys

theorem flat_signature (params : List Ty) (result : Ty) : Flat (signatureWords params result) := by
  refine Flat.append ?_ ?_
  · split
    · exact flat_nil
    · exact (flat_types params).form "param"
  · split
    · exact flat_nil
    · exact (flat_ident _).form "result"

theorem flat_flags (f : Func) : Flat (flagWords f) := by
  unfold flagWords
  split
  · exact flat_nil
  · refine Flat.form "flags" (Flat.append ?_ ?_) <;> split <;>
      first | exact flat_ident _ | exact flat_nil

theorem flat_handler (h : Handler) : Flat (handlerWords h) := by
  have hclass : Flat (if h.kind = Handler.catchKind && !h.cls.isEmpty then [.ident h.cls] else []) := by
    split
    · exact flat_ident _
    · exact flat_nil
  have hregion : Flat (Listing.form "region" [indexWord h.region]) := (flat_number _).form "region"
  exact Flat.form _ ((flat_ident _).append ((flat_ident _).append ((flat_ident _).append
    (hclass.append hregion))))

theorem flat_frame (x : FrameEntry) : Flat (frameWords x) :=
  Flat.form "frame" ((flat_number _).append
    (((flat_types x.locals).form "locals").append ((flat_types x.stack).form "stack")))

theorem flat_instr (u : CodeUnit) (i : Instr) : Flat (instrWords u i) := by
  refine (flat_ident i.opcode.name).append ?_
  cases i with
  | iconst | load | store | newrec => exact flat_number _
  | sconst => exact flat_singleton (by rintro ⟨⟩) (by rintro ⟨⟩)
  | goto | branch | invoke | checkcast | instanceof => exact flat_ident _
  | recget n m => exact (flat_number _).append (flat_number _)
  | switch low ts d =>
    have hlabels : Flat (.opening :: (ts.map labelWord ++ [.closing])) :=
      (flat_map (fun t => flat_ident (label t)) ts).parens
    have h := (flat_number (Text.ofInt low.toInt)).append (hlabels.append (flat_ident (label d)))
    simp only [cons_append, nil_append, append_assoc] at h
    exact h
  | nop | null | pop | dup | swap | arith | raise | ret | retval => exact flat_nil

theorem flat_code (u : CodeUnit) (labels : List UInt32) (pc : Nat) (is : List Instr) :
    Flat (codeWords u labels pc is) := by
  have hmark (pc : Nat) : Flat (markWords labels pc) := by
    unfold markWords
    split
    · exact (flat_ident _).form "label"
    · exact flat_nil
  induction is generalizing pc with
  | nil => exact hmark pc
  | cons i is ih => exact (hmark pc).append ((flat_instr u i).append (ih (pc + 1)))

theorem flat_body (u : CodeUnit) (f : Func) (is : List Instr) : Flat (bodyWords u f is) :=
  (flat_flatMap fun h _ => flat_handler h).append ((flat_flatMap fun x _ => flat_frame x).append
    (flat_code u _ 0 is))

/-! ## Heads of functions -/

theorem flagsIn_flagWords {f : Func} (hf : f.flags < 4)
    (hts : ts.map word = ((if f.isTransformed then [.ident "transformed"] else []) ++
      (if f.isContinuation then [.ident "continuation"] else [])) ++ .closing :: rest) :
    ∃ ts', DraftParser.flagsIn ts = .ok (f.flags, ts') ∧ ts'.map word = .closing :: rest := by
  have hcases : f.flags = 0 ∨ f.flags = 1 ∨ f.flags = 2 ∨ f.flags = 3 := by
    simp only [← UInt8.toNat_inj, UInt8.lt_iff_toNat_lt] at hf ⊢
    have : f.flags.toNat < 4 := hf
    simp
    omega
  unfold Func.isTransformed Func.isContinuation at hts
  rcases hcases with h | h | h | h <;> rw [h] at hts ⊢
  · obtain ⟨_, ts', rfl, hts'⟩ := exists_of_words hts
    exact ⟨_, rfl, hts⟩
  · obtain ⟨_, ts₁, rfl, h₁⟩ := exists_of_words hts
    obtain ⟨_, ts₂, rfl, h₂⟩ := exists_of_words h₁
    exact ⟨_, rfl, h₁⟩
  · obtain ⟨_, ts₁, rfl, h₁⟩ := exists_of_words hts
    obtain ⟨_, ts₂, rfl, h₂⟩ := exists_of_words h₁
    exact ⟨_, rfl, h₁⟩
  · obtain ⟨_, ts₁, rfl, h₁⟩ := exists_of_words hts
    obtain ⟨_, ts₂, rfl, h₂⟩ := exists_of_words h₁
    obtain ⟨_, ts₃, rfl, h₃⟩ := exists_of_words h₂
    exact ⟨_, rfl, h₂⟩

/-- What may follow the declarations of a function. -/
structure AfterDeclarations (rest : List Word) : Prop where
  notLocals : headForm rest ≠ "locals"
  notStack : headForm rest ≠ "stack"
  notFlags : headForm rest ≠ "flags"

section

open DraftParser

variable {most : Nat} {q : Declared}

/-- Reading goes on behind the words `ws` with other declarations. -/
def Declares (most : Nat) (q : Declared) (ws : List Word) (q' : Declared) : Prop :=
  ∀ (rest : List Word) (ts : List Token), ts.map Token.word = ws ++ rest →
    ∃ mid, mid.map Token.word = rest ∧ ∀ (r : Declared) (ts' : List Token),
      (declarations most q').Gives mid r ts' → (declarations (most + 1) q).Gives ts r ts'

theorem declares_locals (n : UInt32) :
    Declares most q (form "locals" [indexWord n]) { q with locals := some n } := by
  intro rest ts hts
  have hform : formOf ts = "locals" := by rw [formOf_eq, hts]; rfl
  obtain ⟨_, _, ts₁, rfl, h₁⟩ := exists_of_form hts
  obtain ⟨ts₂, hindex, h₂⟩ := reads_index n ts₁ h₁
  obtain ⟨_, mid, rfl, hmid⟩ := exists_of_words h₂
  refine ⟨mid, hmid, fun r ts' hr => ?_⟩
  rw [declarations]
  refine Gives.bind (gives_form.mpr ⟨hform, rfl⟩) ?_
  rw [if_pos rfl]
  simp only [gives_bind, gives_skip, gives_close, exists_const]
  exact ⟨_, rfl, _, _, hindex, _, ⟨_, rfl, rfl⟩, hr⟩

theorem declares_stack (n : UInt32) :
    Declares most q (form "stack" [indexWord n]) { q with stack := some n } := by
  intro rest ts hts
  have hform : formOf ts = "stack" := by rw [formOf_eq, hts]; rfl
  obtain ⟨_, _, ts₁, rfl, h₁⟩ := exists_of_form hts
  obtain ⟨ts₂, hindex, h₂⟩ := reads_index n ts₁ h₁
  obtain ⟨_, mid, rfl, hmid⟩ := exists_of_words h₂
  refine ⟨mid, hmid, fun r ts' hr => ?_⟩
  rw [declarations]
  refine Gives.bind (gives_form.mpr ⟨hform, rfl⟩) ?_
  rw [if_neg (by decide), if_pos rfl]
  simp only [gives_bind, gives_skip, gives_close, exists_const]
  exact ⟨_, rfl, _, _, hindex, _, ⟨_, rfl, rfl⟩, hr⟩

theorem declarations_done {ts : List Token} (hrest : AfterDeclarations rest)
    (hts : ts.map word = rest) : (declarations (most + 1) q).Gives ts q ts := by
  rw [← hts] at hrest
  rw [declarations]
  refine Gives.bind (gives_form.mpr ⟨formOf_eq ts, rfl⟩) ?_
  rw [if_neg hrest.notLocals, if_neg hrest.notStack, if_neg hrest.notFlags]
  exact gives_pure.mpr ⟨rfl, rfl⟩

theorem reads_flags {f : Func} (hf : f.flags < 4) (hq : q.flags = 0) (hrest : AfterDeclarations rest)
    {ts : List Token} (hts : ts.map word = flagWords f ++ rest) :
    ∃ ts', (declarations (most + 2) q).Gives ts { q with flags := f.flags } ts' ∧
      ts'.map word = rest := by
  unfold flagWords at hts
  split at hts
  next hzero =>
    refine ⟨ts, ?_, hts⟩
    rw [hzero, ← hq]
    exact declarations_done hrest hts
  next =>
    have hform : formOf ts = "flags" := by rw [formOf_eq, hts]; rfl
    obtain ⟨_, _, ts₁, rfl, h₁⟩ := exists_of_form hts
    obtain ⟨ts₂, hflags, h₂⟩ := flagsIn_flagWords hf h₁
    obtain ⟨_, ts', rfl, hts'⟩ := exists_of_words h₂
    refine ⟨ts', ?_, hts'⟩
    rw [declarations]
    refine Gives.bind (gives_form.mpr ⟨hform, rfl⟩) ?_
    rw [if_neg (by decide), if_neg (by decide), if_pos rfl]
    simp only [gives_bind, gives_skip, gives_get, gives_attempt,
      gives_set, gives_close, exists_const]
    refine ⟨_, rfl, _, _, ⟨rfl, rfl⟩, _, _, ⟨hflags, rfl⟩, _, rfl, _, ⟨_, rfl, rfl⟩, ?_⟩
    have hor : q.flags ||| f.flags = f.flags := by rw [hq]; exact UInt8.zero_or
    rw [hor]
    exact declarations_done hrest hts'

theorem reads_declarations (most : Nat) {f : Func} (hf : f.flags < 4) (hrest : AfterDeclarations rest)
    {ts : List Token}
    (hts : ts.map word = form "locals" [indexWord f.maxLocals] ++
      (form "stack" [indexWord f.maxStack] ++ (flagWords f ++ rest))) :
    ∃ ts', (declarations (most + 4) {}).Gives ts
        { locals := some f.maxLocals, stack := some f.maxStack, flags := f.flags } ts' ∧
      ts'.map word = rest := by
  obtain ⟨ts₁, h₁, hlocals⟩ := declares_locals f.maxLocals _ ts hts
  obtain ⟨ts₂, h₂, hstack⟩ := declares_stack f.maxStack _ ts₁ h₁
  obtain ⟨ts', hflags, hts'⟩ :=
    reads_flags (q := { locals := some f.maxLocals, stack := some f.maxStack }) hf rfl hrest h₂
  exact ⟨ts', hlocals _ _ (hstack _ _ hflags), hts'⟩

end

/-- The forms that a body can start with. -/
theorem headForm_body (u : CodeUnit) (f : Func) (is : List Instr) (rest : List Word) :
    headForm (bodyWords u f is ++ .closing :: rest) ∈
      (["catch", "cleanup", "frame", "label", ∅] : List Text) := by
  have hmark {labels : List UInt32} {pc : Nat} {ws : List Word} (hws : headForm ws = ∅) :
      headForm (markWords labels pc ++ ws) ∈ (["label", ∅] : List Text) := by
    unfold markWords
    split
    · rw [headForm_form]; simp
    · rw [nil_append, hws]; simp
  have hcode : headForm (codeWords u (labelled f is) 0 is ++ .closing :: rest) ∈
      (["label", ∅] : List Text) := by
    cases is with
    | nil => exact hmark (headForm_of_ne (by decide))
    | cons i is =>
      rw [codeWords, append_assoc]
      exact hmark (headForm_of_ne (by rintro ⟨⟩))
  unfold bodyWords
  rw [append_assoc, append_assoc]
  cases hhandlers : f.handlers with
  | cons h hs =>
    rw [flatMap_cons, append_assoc]
    unfold handlerWords
    rw [headForm_form]
    split <;> simp
  | nil =>
    cases hframes : frameTable f with
    | cons x xs =>
      rw [flatMap_nil, nil_append, flatMap_cons, append_assoc]
      unfold frameWords
      rw [headForm_form]
      simp
    | nil =>
      rw [flatMap_nil, flatMap_nil, nil_append, nil_append]
      simp only [mem_cons, not_mem_nil, or_false] at hcode ⊢
      tauto

/-- What the head of a function says. -/
def funcHead (f : Func) : Func := { name := f.name, params := f.params, result := f.result, flags := f.flags }

/-- The body of a function is still to be read. -/
structure Pending.Awaits (u : CodeUnit) (f : Func) (is : List Instr) (index : Nat) (p : Pending) :
    Prop where
  index : p.index = index
  locals : p.locals = some f.maxLocals
  stack : p.stack = some f.maxStack
  body : ∃ rest, p.body.map Token.word = bodyWords u f is ++ .closing :: rest

theorem takes_function {u : CodeUnit} {f : Func} {is : List Instr} (hf : f.Spelled)
    (hts : ts.map word = functionWords u f is ++ rest)
    (hnew : d.scope.functions.lookup ("$" ++ f.name) = none) :
    ∃ p ts', p.Awaits u f is d.unit.functions.length ∧ ts'.map word = rest ∧
      Yields DraftParser.function d ts ()
        { d with
          unit.functions := d.unit.functions ++ [funcHead f]
          scope.functions := d.scope.functions ++ [("$" ++ f.name, d.unit.functions.length)]
          pending := d.pending ++ [p] } ts' := by
  have hhead := headForm_body u f is rest
  have hafter : AfterDeclarations (bodyWords u f is ++ .closing :: rest) := by
    constructor <;> intro h <;> rw [h] at hhead <;> revert hhead <;> decide
  have hflat : Flat (.ident ("$" ++ f.name) :: (signatureWords f.params f.result ++
      (form "locals" [indexWord f.maxLocals] ++ (form "stack" [indexWord f.maxStack] ++
        (flagWords f ++ bodyWords u f is))))) :=
    (flat_ident _).append ((flat_signature _ _).append (((flat_number _).form _).append
      (((flat_number _).form _).append ((flat_flags f).append (flat_body u f is)))))
  obtain ⟨ts', hts', hbalanced⟩ := balanced_form hflat hts
  have hlength : 4 ≤ ts.length := by
    have h := congrArg List.length hts
    simp only [functionWords, Listing.form, length_map, length_append, length_cons] at h
    omega
  obtain ⟨most, hmost⟩ := Nat.exists_eq_add_of_le' hlength
  obtain ⟨_, _, ts₁, heq, h₁⟩ := exists_of_form hts
  obtain ⟨_, ts₂, rfl, h₂⟩ := exists_of_words h₁
  simp only [append_eq, append_assoc] at h₂
  have hsignature : AfterSignature (form "locals" [indexWord f.maxLocals] ++
      (form "stack" [indexWord f.maxStack] ++ (flagWords f ++ (bodyWords u f is ++ .closing :: rest)))) := by
    constructor <;> rw [headForm_form] <;> decide
  obtain ⟨ts₃, ts₄, hparams, hresult, h₄⟩ := reads_signature hf.params hf.result hsignature h₂
  obtain ⟨body, hdeclared, hbody⟩ := reads_declarations most hf.flags hafter h₄
  refine ⟨{ index := d.unit.functions.length, body, locals := some f.maxLocals, stack := some f.maxStack },
    ts', ⟨rfl, rfl, rfl, rest, hbody⟩, hts', ?_⟩
  simp only [DraftParser.function, ↓yields_lift_bind, yields_bind, gives_skip,
    gives_expect, yields_modify, yields_unless, yields_get, yields_getTokens, yields_setTokens,
    yields_attempt, and_assoc, exists_eq_left', exists_const, exists_and_left]
  rw [← hmost] at hdeclared
  refine ⟨_, _, by rw [heq]; rfl, rfl, ?_, ?_, _, _, hparams, _, _, hresult, _, _, hdeclared, _,
    hbalanced, rfl, rfl⟩
  · simp [Word.ident, isId_append]
  · show ¬(d.scope.functions.lookup ("$" ++ f.name)).isSome = true
    simp [hnew]

end Assembly

end Resumable
