import Resumable.Listing
import Resumable.Proofs.Assembly.Assembled

/-!
# The words of a listing

For each part of a listing, the words that it is written with. That the tokenizer finds them is proved
from the end of the text on: what follows a part is known to be written with its words.
-/

namespace Resumable

open Assembly List

namespace Listing

/-! ## Words -/

/-- A form with its first word. -/
def form (name : Text) (ws : List Word) : List Word := .opening :: .ident name :: (ws ++ [.closing])

def indexWord (n : UInt32) : Word := .number (index n)

def labelWord (n : UInt32) : Word := .ident (label n)

def typeWords (ts : List Ty) : List Word := ts.map fun t => .ident t.text

def signatureWords (params : List Ty) (result : Ty) : List Word :=
  (if params.isEmpty then [] else form "param" (typeWords params)) ++
    (if result = .void then [] else form "result" [.ident result.text])

def flagWords (f : Func) : List Word :=
  if f.flags = 0 then []
  else form "flags" ((if f.isTransformed then [.ident "transformed"] else []) ++
    (if f.isContinuation then [.ident "continuation"] else []))

def classWords (c : ClassDecl) : List Word :=
  form "class" (.ident c.name :: if c.super.isEmpty then [] else [.ident c.super])

/-- The identifier of an import. -/
def symbolId (i : Nat) : Text := "$sym" ++ Text.ofNat i

def ownerText (s : Symbol) : Text := if s.owner.isEmpty then "." else s.owner

def symbolWords (i : Nat) (s : Symbol) : List Word :=
  form "import" (.ident (symbolId i) :: .ident (ownerText s) :: .ident s.name ::
    signatureWords s.params s.result)

def layoutWords (l : Layout) : List Word :=
  form "record" (.ident l.function :: indexWord l.point :: form "fields" (typeWords l.fields))

def handlerWords (h : Handler) : List Word :=
  form (if h.kind = Handler.cleanupKind then "cleanup" else "catch")
    (labelWord h.start :: labelWord h.stop :: labelWord h.target ::
      ((if h.kind = Handler.catchKind && !h.cls.isEmpty then [.ident h.cls] else []) ++
        form "region" [indexWord h.region]))

def frameWords (x : FrameEntry) : List Word :=
  form "frame" (indexWord x.instr :: (form "locals" (typeWords x.locals) ++
    form "stack" (typeWords x.stack)))

def operandWords (u : CodeUnit) : Instr → List Word
  | .iconst v => [.number (Text.ofInt v.toInt)]
  | .sconst n => [.string ((item? u.strings n).getD ∅)]
  | .load n | .store n | .newrec n => [indexWord n]
  | .goto t | .branch _ t => [labelWord t]
  | .switch low ts d =>
    .number (Text.ofInt low.toInt) :: .opening :: (ts.map labelWord ++ [.closing, labelWord d])
  | .invoke n => [.ident (symbolId n.toNat)]
  | .checkcast n | .instanceof n => [.ident ((item? u.strings n).getD ∅)]
  | .recget n f => [indexWord n, indexWord f]
  | _ => []

def instrWords (u : CodeUnit) (i : Instr) : List Word := .ident i.opcode.name :: operandWords u i

def markWords (labels : List UInt32) (pc : Nat) : List Word :=
  if UInt32.ofNat pc ∈ labels then form "label" [.ident ("$L" ++ Text.ofNat pc)] else []

def codeWords (u : CodeUnit) (labels : List UInt32) : (pc : Nat) → List Instr → List Word
  | pc, [] => markWords labels pc
  | pc, i :: rest => markWords labels pc ++ (instrWords u i ++ codeWords u labels (pc + 1) rest)

/-- The words of the items of a body. -/
def bodyWords (u : CodeUnit) (f : Func) (is : List Instr) : List Word :=
  f.handlers.flatMap handlerWords ++ ((frameTable f).flatMap frameWords ++
    codeWords u (labelled f is) 0 is)

def functionWords (u : CodeUnit) (f : Func) (is : List Instr) : List Word :=
  form "func" (.ident ("$" ++ f.name) :: (signatureWords f.params f.result ++
    (form "locals" [indexWord f.maxLocals] ++ (form "stack" [indexWord f.maxStack] ++
      (flagWords f ++ bodyWords u f is)))))

def headWords (u : CodeUnit) : List Word :=
  u.classes.flatMap classWords ++ (u.symbols.zipIdx.flatMap (fun q => symbolWords q.2 q.1) ++
    u.records.flatMap layoutWords)

end Listing

namespace Assembly

open Listing

variable {rest k : Text} {vs : List Word}

/-! ## Delimiters -/

@[simp] theorem delimited_blank (t : Text) : Delimited (" " ++ t) := ⟨' ', t, rfl, by simp [IsDelimiter]⟩

@[simp] theorem delimited_newline (t : Text) : Delimited ("\n" ++ t) := ⟨'\n', t, rfl, by simp [IsDelimiter]⟩

@[simp] theorem delimited_closing (t : Text) : Delimited (")" ++ t) := ⟨')', t, rfl, by simp [IsDelimiter]⟩

/-! ## Small parts -/

/-- The words and the starts of words that every listing is made of. -/
def keywords : List Text :=
  ["unit", "class", "import", "record", "fields", "func", "param", "result", "locals", "stack", "flags",
    "transformed", "continuation", "catch", "cleanup", "region", "frame", "label", ".", "$", "$L", "$sym"]

theorem isIdent_keyword {w : Text} (hw : w ∈ keywords) : IsIdent w := by
  have hall : keywords.all (fun w => decide (IsIdent w)) = true := by decide +kernel
  exact of_decide_eq_true (all_eq_true.mp hall w hw)

theorem Renders.keyword {w : Text} (hw : w ∈ keywords) (hk : Delimited k) (h : Renders rest vs k) :
    Renders rest (.ident w :: vs) (w ++ k) :=
  .ident (isIdent_keyword hw) hk h

theorem Renders.index {n : UInt32} (hk : Delimited k) (h : Renders rest vs k) :
    Renders rest (indexWord n :: vs) (index n ++ k) :=
  .number (isDecimal_ofNat n.toNat) hk h

theorem isWord_ofNat (n : Nat) : IsWord (Text.ofNat n) :=
  ⟨_, Text.ofNat_eq_ofChars n, fun _ hc =>
    (isNumberChar_of_isDigit (Nat.isDigit_of_mem_toDigits (by decide) (by decide) hc)).2.1⟩

/-- More characters may follow those of an identifier. -/
theorem IsIdent.append {w t : Text} (hw : IsIdent w) (ht : IsWord t) : IsIdent (w ++ t) := by
  obtain ⟨cs, rfl, hcs⟩ := isIdent_iff.mp hw
  obtain ⟨ds, rfl, hds⟩ := ht
  refine isIdent_iff.mpr ⟨cs ++ ds, (Text.ofChars_append cs ds).symm, ?_⟩
  cases cs with
  | nil => cases hcs
  | cons c cs =>
    rw [isIdentChars, Bool.and_eq_true] at hcs
    rw [cons_append, isIdentChars, all_append, hcs.1, hcs.2, all_eq_true.mpr hds]
    rfl

theorem isIdent_label (n : UInt32) : IsIdent (label n) :=
  IsIdent.append (isIdent_keyword (by simp [keywords])) (isWord_ofNat n.toNat)

theorem isIdent_symbolId (i : Nat) : IsIdent (symbolId i) :=
  IsIdent.append (isIdent_keyword (by simp [keywords])) (isWord_ofNat i)

theorem Renders.label {n : UInt32} (hk : Delimited k) (h : Renders rest vs k) :
    Renders rest (labelWord n :: vs) (label n ++ k) :=
  .ident (isIdent_label n) hk h

/-! ## Types -/

theorem types_cons (t : Ty) (ts : List Ty) : types (t :: ts) = " " ++ t.text ++ types ts := rfl

theorem delimited_types (ts : List Ty) (hk : Delimited k) : Delimited (types ts ++ k) := by
  cases ts with
  | nil => exact hk
  | cons t ts =>
    rw [types_cons, Text.append_assoc, Text.append_assoc]
    exact delimited_blank _

theorem Renders.types {ts : List Ty} (hts : ∀ t ∈ ts, t.Spelled) (hk : Delimited k)
    (h : Renders rest vs k) : Renders rest (typeWords ts ++ vs) (types ts ++ k) := by
  induction ts with
  | nil => exact h
  | cons t ts ih =>
    obtain ⟨ht, hts⟩ := forall_mem_cons.mp hts
    rw [types_cons, Text.append_assoc, Text.append_assoc]
    exact .blank (.ident ht.ident (delimited_types ts hk) (ih hts))

theorem delimited_signature (params : List Ty) (result : Ty) (hk : Delimited k) :
    Delimited (signature params result ++ k) := by
  have hparam : (" (param" : Text) = " " ++ "(param" := rfl
  have hresult : (" (result " : Text) = " " ++ "(result " := rfl
  unfold signature
  split
  · split
    · exact hk
    · simp only [hresult, Text.append_assoc, Text.empty_append, delimited_blank]
  · simp only [hparam, Text.append_assoc, delimited_blank]

theorem Renders.signature {params : List Ty} {result : Ty} (hparams : ∀ t ∈ params, t.Spelled)
    (hresult : result.Spelled) (h : Renders rest vs k) :
    Renders rest (signatureWords params result ++ vs) (signature params result ++ k) := by
  have hp : (" (param" : Text) = " " ++ ("(" ++ "param") := rfl
  have hr : (" (result " : Text) = " " ++ ("(" ++ ("result" ++ " ")) := rfl
  have hres : Renders rest
      ((if result = .void then [] else form "result" [.ident result.text]) ++ vs)
      ((if result = .void then ∅ else " (result " ++ result.text ++ ")") ++ k) := by
    split
    · exact h
    · simp only [hr, Text.append_assoc]
      exact .blank (.opening (.keyword (by simp [keywords]) (delimited_blank _) (.blank
        (.ident hresult.ident (delimited_closing _) (.closing h)))))
  unfold Listing.signature signatureWords
  rw [Text.append_assoc, append_assoc]
  split
  · exact hres
  · simp only [hp, Text.append_assoc, form, cons_append, append_assoc]
    refine .blank (.opening (.keyword (by simp [keywords]) (delimited_types _ (delimited_closing _)) ?_))
    exact .types hparams (delimited_closing _) (.closing hres)

theorem isIdent_opcode (op : Opcode) : IsIdent op.name := by
  cases op <;> decide +kernel

/-- The inside of a line. -/
theorem Renders.line {ws : List Word} {depth : Nat} {t : Text} (h : Renders rest ws (t ++ ("\n" ++ k))) :
    Renders rest ws (line depth t ++ k) := by
  have hindent (depth : Nat) (t : Text) (ht : Renders rest ws t) :
      Renders rest ws (Text.concat (replicate depth "  ") ++ t) := by
    induction depth with
    | zero => exact ht
    | succ depth ih =>
      rw [replicate_succ, Text.concat_cons, Text.append_assoc]
      exact .blank (.blank ih)
  rw [Listing.line, Text.append_assoc, Text.append_assoc]
  exact hindent depth _ h

/-- Lines one after the other. -/
theorem Renders.lines {α : Type} {p : α → Prop} {text : α → Text} {words : α → List Word} (depth : Nat)
    (hstep : ∀ {a k vs}, p a → Renders rest vs ("\n" ++ k) →
      Renders rest (words a ++ vs) (text a ++ ("\n" ++ k)))
    {as : List α} (has : ∀ a ∈ as, p a) (h : Renders rest vs k) :
    Renders rest (as.flatMap words ++ vs)
      (Text.concat (as.map fun a => Listing.line depth (text a)) ++ k) := by
  induction as with
  | nil => exact h
  | cons a as ih =>
    obtain ⟨ha, has⟩ := forall_mem_cons.mp has
    rw [flatMap_cons, map_cons, Text.concat_cons, append_assoc, Text.append_assoc]
    exact .line (hstep ha (.newline (ih has)))

/-! ## Tables -/

theorem Renders.classDecl {c : ClassDecl} (hc : c.Spelled) (h : Renders rest vs k) :
    Renders rest (classWords c ++ vs) (classDecl c ++ k) := by
  have hclass : ("(class " : Text) = "(" ++ ("class" ++ " ") := rfl
  unfold Listing.classDecl classWords form
  split
  next =>
    simp only [hclass, Text.append_assoc]
    exact .opening (.keyword (by simp [keywords]) (delimited_blank _) (.blank
      (.ident hc.name (delimited_closing _) (.closing h))))
  next hne =>
    rcases hc.super with hsuper | ⟨hsuper, -⟩
    · exact absurd (by rw [hsuper]; rfl) hne
    · simp only [hclass, Text.append_assoc]
      exact .opening (.keyword (by simp [keywords]) (delimited_blank _) (.blank
        (.ident hc.name (delimited_blank _) (.blank
          (.ident hsuper (delimited_closing _) (.closing h))))))

theorem isIdent_ownerText {s : Symbol} (hs : s.Spelled) : IsIdent (ownerText s) := by
  unfold ownerText
  split
  next => exact isIdent_keyword (by simp [keywords])
  next hne =>
    rcases hs.owner with howner | ⟨howner, -⟩
    · exact absurd (by rw [howner]; rfl) hne
    · exact howner

/-- The start of an import, up to the name of the symbol. -/
theorem Renders.importHead {i : Nat} {s : Symbol} (hs : s.Spelled) (h : Renders rest vs k) :
    Renders rest (.opening :: .ident "import" :: .ident (symbolId i) :: .ident (ownerText s) :: vs)
      ("(import $sym" ++ (Text.ofNat i ++ (" " ++ (ownerText s ++ (" " ++ k))))) := by
  have himport : ("(import $sym" : Text) = "(" ++ ("import" ++ (" " ++ "$sym")) := rfl
  rw [himport, Text.append_assoc, Text.append_assoc, Text.append_assoc, ← Text.append_assoc "$sym"]
  exact .opening (.keyword (by simp [keywords]) (delimited_blank _) (.blank
    (.ident (isIdent_symbolId i) (delimited_blank _) (.blank
      (.ident (isIdent_ownerText hs) (delimited_blank _) (.blank h))))))

theorem Renders.symbol (i : Nat) {s : Symbol} (hs : s.Spelled) (hname : IsIdent s.name)
    (h : Renders rest vs k) : Renders rest (symbolWords i s ++ vs) (symbol i s ++ k) := by
  have htext : Listing.symbol i s ++ k = "(import $sym" ++ (Text.ofNat i ++ (" " ++ (ownerText s ++ (" " ++
      (s.name ++ (Listing.signature s.params s.result ++ (")" ++ k))))))) := by
    simp only [Listing.symbol, ownerText, Text.append_assoc]
  rw [htext, symbolWords, form]
  simp only [cons_append, append_assoc]
  refine .importHead hs (.ident hname (delimited_signature _ _ (delimited_closing _)) ?_)
  exact .signature hs.params hs.result (.closing h)

theorem Renders.layout {l : Layout} (hl : l.Spelled) (h : Renders rest vs k) :
    Renders rest (layoutWords l ++ vs) (layout l ++ k) := by
  have hrecord : ("(record " : Text) = "(" ++ ("record" ++ " ") := rfl
  have hfields : (" (fields" : Text) = " " ++ ("(" ++ "fields") := rfl
  have hclose : ("))" : Text) = ")" ++ ")" := rfl
  simp only [Listing.layout, layoutWords, form, hrecord, hfields, hclose, Text.append_assoc,
    cons_append, append_assoc, nil_append]
  refine .opening (.keyword (by simp [keywords]) (delimited_blank _) (.blank
    (.ident hl.function (delimited_blank _) (.blank (.index (delimited_blank _) (.blank (.opening
      (.keyword (by simp [keywords]) (delimited_types _ (delimited_closing _)) ?_))))))))
  exact .types hl.fields (delimited_closing _) (.closing (.closing h))

/-! ## Bodies -/

theorem Renders.handler {x : Handler} (hx : HandlerSpelled x.cls x.kind) (h : Renders rest vs k) :
    Renders rest (handlerWords x ++ vs) (handler x ++ k) := by
  have hregion : (" (region " : Text) = " " ++ ("(" ++ ("region" ++ " ")) := rfl
  have hclose : ("))" : Text) = ")" ++ ")" := rfl
  have htail : Renders rest (form "region" [indexWord x.region] ++ (.closing :: vs))
      (" (region " ++ (Listing.index x.region ++ ("))" ++ k))) := by
    simp only [hregion, hclose, Text.append_assoc, form, cons_append, nil_append]
    exact .blank (.opening (.keyword (by simp [keywords]) (delimited_blank _) (.blank
      (.index (delimited_closing _) (.closing (.closing h))))))
  have hclass : Renders rest
      ((if x.kind = Handler.catchKind && !x.cls.isEmpty then [.ident x.cls] else []) ++
        (form "region" [indexWord x.region] ++ (.closing :: vs)))
      ((if x.kind = Handler.catchKind && !x.cls.isEmpty then " " ++ x.cls else ∅) ++
        (" (region " ++ (Listing.index x.region ++ ("))" ++ k)))) := by
    split
    next hnamed =>
      have hident : IsIdent x.cls := by
        rcases hx.named with hcls | hcls
        · rw [hcls] at hnamed
          simp [Text.isEmpty] at hnamed
        · exact hcls.1
      rw [Text.append_assoc]
      exact .blank (.ident hident (by rw [hregion]; exact delimited_blank _) htail)
    next => exact htail
  have hdelimited : Delimited ((if x.kind = Handler.catchKind && !x.cls.isEmpty then " " ++ x.cls else ∅) ++
      (" (region " ++ (Listing.index x.region ++ ("))" ++ k)))) := by
    split
    · exact delimited_blank _
    · exact delimited_blank _
  have hword : IsIdent (if x.kind = Handler.cleanupKind then "cleanup" else "catch") := by
    split <;> exact isIdent_keyword (by simp [keywords])
  simp only [Listing.handler, handlerWords, form, apply_ite Text.ofString, Text.append_assoc,
    cons_append, append_assoc]
  refine .opening (.ident hword (delimited_blank _) (.blank (.label (delimited_blank _) (.blank
    (.label (delimited_blank _) (.blank (.label hdelimited ?_)))))))
  simpa only [form, cons_append, append_assoc, nil_append] using hclass

theorem Renders.frame {x : FrameEntry} (hx : x.Spelled) (h : Renders rest vs k) :
    Renders rest (frameWords x ++ vs) (frame x ++ k) := by
  have hframe : ("(frame " : Text) = "(" ++ ("frame" ++ " ") := rfl
  have hlocals : (" (locals" : Text) = " " ++ ("(" ++ "locals") := rfl
  have hstack : (") (stack" : Text) = ")" ++ (" " ++ ("(" ++ "stack")) := rfl
  have hclose : ("))" : Text) = ")" ++ ")" := rfl
  simp only [Listing.frame, frameWords, form, hframe, hlocals, hstack, hclose, Text.append_assoc,
    cons_append, append_assoc, nil_append]
  refine .opening (.keyword (by simp [keywords]) (delimited_blank _) (.blank (.index (delimited_blank _)
    (.blank (.opening (.keyword (by simp [keywords]) (delimited_types _ (delimited_closing _)) ?_))))))
  refine .types hx.locals (delimited_closing _) (.closing (.blank (.opening
    (.keyword (by simp [keywords]) (delimited_types _ (delimited_closing _)) ?_))))
  exact .types hx.stack (delimited_closing _) (.closing (.closing h))

/-! ## Instructions -/

/-- A text on one line. -/
def Inline (t : Text) : Prop := ∃ cs, t = Text.ofChars cs ∧ '\n' ∉ cs

theorem Inline.append {s t : Text} (hs : Inline s) (ht : Inline t) : Inline (s ++ t) := by
  obtain ⟨cs, rfl, hcs⟩ := hs
  obtain ⟨ds, rfl, hds⟩ := ht
  exact ⟨cs ++ ds, (Text.ofChars_append cs ds).symm, by simp [hcs, hds]⟩

theorem IsWord.inline {t : Text} (h : IsWord t) : Inline t := by
  obtain ⟨cs, rfl, hcs⟩ := h
  exact ⟨cs, rfl, fun hmem => absurd (hcs _ hmem) (by decide +kernel)⟩

theorem inline_join {sep : Text} {ts : List Text} (hsep : Inline sep) (hts : ∀ t ∈ ts, Inline t) :
    Inline (Text.join sep ts) := by
  induction ts with
  | nil => exact ⟨[], rfl, by simp⟩
  | cons t ts ih =>
    obtain ⟨ht, hts⟩ := forall_mem_cons.mp hts
    cases ts with
    | nil => exact ht.append ⟨[], rfl, by simp⟩
    | cons t' ts =>
      have hjoin : Text.join sep (t :: t' :: ts) = t ++ (sep ++ Text.join sep (t' :: ts)) := rfl
      rw [hjoin]
      exact ht.append (hsep.append (ih hts))

theorem inline_symbol {s : Symbol} (hs : s.Spelled) : Inline s.text := by
  have hlit (c : Char) (hc : c ≠ '\n') : Inline (Text.ofChars [c]) := ⟨[c], rfl, by simpa using hc.symm⟩
  have hkey : Inline s.key := by
    unfold Symbol.key
    split
    · exact hs.name.inline
    · refine Inline.append (Inline.append ?_ (hlit '.' (by decide))) hs.name.inline
      rcases hs.owner with howner | ⟨howner, -⟩
      · exact ⟨[], howner, by simp⟩
      · exact howner.isWord.inline
  have hparams : Inline (Text.join "," (s.params.map Ty.text)) := by
    refine inline_join (hlit ',' (by decide)) (forall_mem_map.mpr fun t ht => ?_)
    exact (hs.params t ht).ident.isWord.inline
  exact (((hkey.append (hlit '(' (by decide))).append hparams).append (hlit ')' (by decide))).append
    hs.result.ident.isWord.inline

theorem Renders.labels {ts : List UInt32} (hk : Delimited k) (h : Renders rest vs k) :
    Renders rest (ts.map labelWord ++ vs) (Text.join " " (ts.map Listing.label) ++ k) := by
  induction ts with
  | nil => exact h
  | cons t ts ih =>
    cases ts with
    | nil =>
      have hjoin : Text.join " " ([t].map Listing.label) = Listing.label t ++ ∅ := rfl
      rw [hjoin, Text.append_empty]
      exact .label hk h
    | cons t' ts =>
      have hjoin : Text.join " " ((t :: t' :: ts).map Listing.label) =
          Listing.label t ++ (" " ++ Text.join " " ((t' :: ts).map Listing.label)) := rfl
      rw [hjoin, Text.append_assoc, Text.append_assoc]
      exact .label (delimited_blank _) (.blank ih)

variable {u : CodeUnit}

/-- An instruction, which stands at the end of its line. -/
theorem Renders.instr (hu : u.Spelled) {i : Instr} (hi : Casts u.strings i)
    (h : Renders rest vs ("\n" ++ k)) :
    Renders rest (instrWords u i ++ vs) (instr u i ++ ("\n" ++ k)) := by
  have hk := delimited_newline k
  have hop {op : Opcode} {ws : List Word} {t : Text} (h : Renders rest ws t) :
      Renders rest (.ident op.name :: ws) (op.name ++ (" " ++ t)) :=
    .ident (isIdent_opcode op) (delimited_blank _) (.blank h)
  have hcast {n : UInt32} (hn : i.cast? = some n) : IsIdent ((item? u.strings n).getD ∅) := by
    obtain ⟨s, hs, hident⟩ := hi n hn
    rwa [hs]
  cases i with
  | nop | null | pop | dup | swap | arith | raise | ret | retval => exact .ident (isIdent_opcode _) hk h
  | iconst v =>
    simp only [Listing.instr, Text.append_assoc]
    exact hop (.number (isDecimal_ofInt _) hk h)
  | sconst n =>
    simp only [Listing.instr, Text.append_assoc]
    exact hop (.string h)
  | load n | store n | newrec n =>
    simp only [Listing.instr, Text.append_assoc]
    exact hop (.index hk h)
  | goto t | branch test t =>
    simp only [Listing.instr, Text.append_assoc]
    exact hop (.label hk h)
  | switch low ts d =>
    have hopen : (" (" : Text) = " " ++ "(" := rfl
    have hclose : (") " : Text) = ")" ++ " " := rfl
    simp only [Listing.instr, instrWords, operandWords, hopen, hclose, Text.append_assoc,
      cons_append, append_assoc, nil_append]
    refine hop (.number (isDecimal_ofInt _) (delimited_blank _) (.blank (.opening ?_)))
    exact .labels (delimited_closing _) (.closing (.blank (.label hk h)))
  | invoke n =>
    have hsym : (" $sym" : Text) = " " ++ "$sym" := rfl
    have hcomment : (" ;; " : Text) = " " ++ (";;" ++ Text.ofChars [' ']) := rfl
    obtain ⟨cs, hcs, hinline⟩ : Inline ((item? u.symbols n).elim ∅ Symbol.text) := by
      cases hn : item? u.symbols n with
      | none => exact ⟨[], rfl, by simp⟩
      | some x => exact inline_symbol (hu.symbols x (mem_of_getElem? hn))
    simp only [Listing.instr, hsym, hcomment, hcs, Text.append_assoc]
    rw [← Text.append_assoc "$sym", ← Text.append_assoc (Text.ofChars [' ']), ← Text.ofChars_append]
    refine hop (.ident (isIdent_symbolId n.toNat) (delimited_blank _) (.blank (.comment ?_ h)))
    simpa using hinline
  | checkcast n | instanceof n =>
    simp only [Listing.instr, Text.append_assoc]
    exact hop (.ident (hcast rfl) hk h)
  | recget n m =>
    simp only [Listing.instr, Text.append_assoc]
    exact hop (.index (delimited_blank _) (.blank (.index hk h)))

theorem Renders.code (hu : u.Spelled) {labels : List UInt32} {pc : Nat} {is : List Instr}
    (his : ∀ i ∈ is, Casts u.strings i) (h : Renders rest vs k) :
    Renders rest (codeWords u labels pc is ++ vs) (code u labels pc is ++ k) := by
  have hmark {pc : Nat} {ws : List Word} {t : Text} (h : Renders rest ws t) :
      Renders rest (markWords labels pc ++ ws) (code.mark labels pc ++ t) := by
    have hlabel : ("(label $L" : Text) = "(" ++ ("label" ++ (" " ++ "$L")) := rfl
    unfold markWords code.mark
    split
    · refine .line ?_
      simp only [hlabel, form, Text.append_assoc, cons_append, nil_append]
      rw [← Text.append_assoc "$L"]
      exact .opening (.keyword (by simp [keywords]) (delimited_blank _) (.blank
        (.ident (IsIdent.append (isIdent_keyword (by simp [keywords])) (isWord_ofNat pc)) (delimited_closing _)
          (.closing (.newline h)))))
    · exact h
  induction is generalizing pc with
  | nil => exact hmark h
  | cons i is ih =>
    obtain ⟨hi, his⟩ := forall_mem_cons.mp his
    rw [codeWords, Listing.code, Text.append_assoc, Text.append_assoc, append_assoc,
      append_assoc]
    exact hmark (.line (.instr hu hi (.newline (ih his))))

/-! ## Functions and units -/

theorem Renders.flags {f : Func} (h : Renders rest vs k) :
    Renders rest (flagWords f ++ vs) (flags f ++ k) := by
  have hflags : (" (flags " : Text) = " " ++ ("(" ++ ("flags" ++ " ")) := rfl
  have hone (w : Text) : Text.join " " [w] = w := Text.append_empty w
  have htwo (w w' : Text) : Text.join " " [w, w'] = w ++ (" " ++ Text.join " " [w']) := rfl
  have htransformed : IsIdent "transformed" := isIdent_keyword (by simp [keywords])
  have hcontinuation : IsIdent "continuation" := isIdent_keyword (by simp [keywords])
  unfold flagWords Listing.flags
  split
  · exact h
  · simp only [hflags, form, Text.append_assoc, cons_append, append_assoc]
    refine .blank (.opening (.keyword (by simp [keywords]) (delimited_blank _) (.blank ?_)))
    cases f.isTransformed <;> cases f.isContinuation
    · exact .closing h
    · exact (hone "continuation").symm ▸ .ident hcontinuation (delimited_closing _) (.closing h)
    · exact (hone "transformed").symm ▸ .ident htransformed (delimited_closing _) (.closing h)
    · simp only [if_true, cons_append, nil_append, htwo, hone, Text.append_assoc]
      exact .ident htransformed (delimited_blank _) (.blank
        (.ident hcontinuation (delimited_closing _) (.closing h)))

theorem Renders.function (hu : u.Spelled) {f : Func} (hf : f.Spelled) {is : List Instr}
    (hframes : ∀ x ∈ frameTable f, x.Spelled) (his : ∀ i ∈ is, Casts u.strings i)
    (h : Renders rest vs k) :
    Renders rest (functionWords u f is ++ vs) (function u f is ++ k) := by
  have hfunc : ("(func $" : Text) = "(" ++ ("func" ++ (" " ++ "$")) := rfl
  have hlocals : (" (locals " : Text) = " " ++ ("(" ++ ("locals" ++ " ")) := rfl
  have hstack : (") (stack " : Text) = ")" ++ (" " ++ ("(" ++ ("stack" ++ " "))) := rfl
  have hname : IsIdent ("$" ++ f.name) := IsIdent.append (isIdent_keyword (by simp [keywords])) hf.name
  have hend : Renders rest (.closing :: vs) (Listing.line 1 ")" ++ k) := .line (.closing (.newline h))
  have hcode : Renders rest (codeWords u (labelled f is) 0 is ++ (.closing :: vs))
      (Listing.code u (labelled f is) 0 is ++ (Listing.line 1 ")" ++ k)) := .code hu his hend
  have hframe := Renders.lines 2 .frame hframes hcode
  have hbody := Renders.lines 2 .handler hf.handlers hframe
  simp only [Listing.function, functionWords, bodyWords, form, Text.append_assoc, cons_append,
    append_assoc]
  refine .line ?_
  simp only [hfunc, hlocals, hstack, Text.append_assoc]
  rw [← Text.append_assoc "$"]
  refine .opening (.keyword (by simp [keywords]) (delimited_blank _) (.blank (.ident hname
    (delimited_signature _ _ (delimited_blank _)) (.signature hf.params hf.result ?_))))
  refine .blank (.opening (.keyword (by simp [keywords]) (delimited_blank _) (.blank
    (.index (delimited_closing _) (.closing (.blank (.opening (.keyword (by simp [keywords])
      (delimited_blank _) (.blank (.index (delimited_closing _) (.closing ?_)))))))))))
  exact .flags (.newline hbody)

theorem Renders.head (hu : u.Spelled) (hnames : ∀ s ∈ u.symbols, IsIdent s.name)
    (h : Renders rest vs k) :
    Renders rest (.opening :: .ident "unit" :: (headWords u ++ vs)) (head u ++ k) := by
  have hunit : ("(unit" : Text) = "(" ++ "unit" := rfl
  have hrecords := Renders.lines 1 .layout hu.records h
  have hspelled : ∀ q ∈ u.symbols.zipIdx, q.1.Spelled ∧ IsIdent q.1.name := fun q hq =>
    have hmem := fst_mem_of_mem_zipIdx hq
    ⟨hu.symbols _ hmem, hnames _ hmem⟩
  have hsymbols := Renders.lines 1 (fun {q} {_ _} hs => .symbol q.2 hs.1 hs.2) hspelled hrecords
  have hclasses := Renders.lines 1 .classDecl hu.classes hsymbols
  simp only [Listing.head, headWords, Text.append_assoc, append_assoc]
  refine .line ?_
  simp only [hunit, Text.append_assoc]
  exact .opening (.keyword (by simp [keywords]) (delimited_newline _) (.newline hclasses))

end Assembly

end Resumable
