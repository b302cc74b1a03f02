import Resumable.Proofs.Assembly.SecondReading
import Resumable.Proofs.Instr.Codec
import Resumable.Proofs.Quicksort.Sorted

/-!
# Listings assemble again

A unit that was assembled, and whose bodies pass their checks, has a listing. The listing is accepted
just when the name of every symbol is an identifier, and then gives back the unit, except that the
frames of each function stand in the order of their instructions.
-/

namespace Resumable

open Assembly List

/-- The unit that a listing gives back. -/
def CodeUnit.relisted (u : CodeUnit) : CodeUnit := { u with functions := u.functions.map Func.relisted }

/-! ## Frames -/

theorem order_frames : Quicksort.Order fun a b : FrameEntry => decide (a.instr < b.instr) := by
  constructor
  · intro a b h
    simp only [decide_eq_true_eq, decide_eq_false_iff_not, UInt32.lt_iff_toNat_lt] at h ⊢
    omega
  · intro a b c h h'
    simp only [decide_eq_false_iff_not, UInt32.lt_iff_toNat_lt] at h h' ⊢
    omega

theorem perm_frameTable (f : Func) : (Listing.frameTable f).Perm f.frames :=
  (Quicksort.sort_sorts order_frames f.frames).1

theorem frameTable_relisted (f : Func) : Listing.frameTable f.relisted = Listing.frameTable f :=
  Quicksort.sort_of_sorted order_frames (Quicksort.sort_sorts order_frames f.frames).2

theorem bodyOf_relisted (u : CodeUnit) (f : Func) : u.relisted.bodyOf f.relisted = u.bodyOf f := rfl

theorem code_relisted (u : CodeUnit) (labels : List UInt32) (pc : Nat) (is : List Instr) :
    Listing.code u.relisted labels pc is = Listing.code u labels pc is := by
  have hinstr (i : Instr) : Listing.instr u.relisted i = Listing.instr u i := by cases i <;> rfl
  induction is generalizing pc with
  | nil => rfl
  | cons i is ih => rw [Listing.code, Listing.code, ih, hinstr]

/-- A listing does not show in which order frames stood. -/
theorem function_relisted (u : CodeUnit) (f : Func) (is : List Instr) :
    Listing.function u.relisted f.relisted is = Listing.function u f is := by
  unfold Listing.function
  rw [frameTable_relisted, code_relisted]
  rfl

/-! ## Bodies of a unit -/

/-- The functions of a unit with the bodies that they are listed with. -/
structure CodeUnit.Bodies (u : CodeUnit) (fs : List (Func × List Instr)) : Prop where
  functions : fs.map Prod.fst = u.functions
  body : ∀ q ∈ fs, u.bodyOf q.1 = .ok q.2

namespace CodeUnit

variable {u : CodeUnit} {fs : List (Func × List Instr)}

theorem exists_bodies (h : ∀ f ∈ u.functions, ∃ is, u.bodyOf f = .ok is) : ∃ fs, u.Bodies fs := by
  suffices hlist : ∀ gs : List Func, (∀ f ∈ gs, ∃ is, u.bodyOf f = .ok is) →
      ∃ fs : List (Func × List Instr), fs.map Prod.fst = gs ∧ ∀ q ∈ fs, u.bodyOf q.1 = .ok q.2 by
    obtain ⟨fs, hfs, hbody⟩ := hlist u.functions h
    exact ⟨fs, hfs, hbody⟩
  intro gs hgs
  induction gs with
  | nil => exact ⟨[], rfl, fun _ hq => nomatch hq⟩
  | cons f gs ih =>
    obtain ⟨⟨is, his⟩, hgs⟩ := forall_mem_cons.mp hgs
    obtain ⟨fs, rfl, hfs⟩ := ih hgs
    exact ⟨(f, is) :: fs, rfl, forall_mem_cons.mpr ⟨his, hfs⟩⟩

theorem Bodies.listing (h : u.Bodies fs) : u.listing =
    { text := Listing.head u ++ (Text.concat (fs.map fun q => Listing.function u q.1 q.2) ++
        Listing.line 0 ")") } := by
  suffices hlist : ∀ qs : List (Func × List Instr), (∀ q ∈ qs, u.bodyOf q.1 = .ok q.2) →
      u.listFunctions (qs.map Prod.fst) =
        { text := Text.concat (qs.map fun q => Listing.function u q.1 q.2) ++ Listing.line 0 ")" } by
    rw [CodeUnit.listing, ← h.functions, hlist fs h.body]
  intro qs hqs
  induction qs with
  | nil => rfl
  | cons q qs ih =>
    obtain ⟨hq, hqs⟩ := forall_mem_cons.mp hqs
    rw [map_cons, listFunctions, listFunction, hq]
    dsimp only
    rw [ih hqs, map_cons, Text.concat_cons, Text.append_assoc]

theorem Bodies.relisted (h : u.Bodies fs) :
    u.relisted.Bodies (fs.map fun q => (q.1.relisted, q.2)) := by
  refine ⟨?_, fun q hq => ?_⟩
  · rw [CodeUnit.relisted, ← h.functions, map_map, map_map]
    rfl
  · obtain ⟨x, hx, rfl⟩ := mem_map.mp hq
    exact (bodyOf_relisted u x.1).trans (h.body x hx)

/-- **A unit and what its listing gives back** have the same listing. -/
theorem Bodies.listing_relisted (h : u.Bodies fs) : u.relisted.listing = u.listing := by
  have hfunctions : (fs.map fun q => (q.1.relisted, q.2)).map
      (fun q => Listing.function u.relisted q.1 q.2) = fs.map fun q => Listing.function u q.1 q.2 := by
    rw [map_map]
    exact map_congr_left fun q _ => function_relisted u q.1 q.2
  rw [h.relisted.listing, h.listing, hfunctions]
  rfl

/-- The bodies of an assembled unit are those that its code was made of. -/
theorem Bodies.assembled (h : u.Bodies fs) {bodies : List (List Instr)} (ha : Assembled u bodies)
    (hlength : bodies.length = u.functions.length)
    (hcode : ∀ f ∈ u.functions, f.code.length < 2 ^ 32) :
    fs.map Prod.snd = bodies ∧ ∀ q ∈ fs, q.1.code = Instr.encodeAll q.2 := by
  have hencoded : bodies.map Instr.encodeAll = fs.map fun q => q.1.code := by
    rw [ha.code, hlength, ← length_map Func.code, take_length, ← h.functions, map_map]
    rfl
  have hdecoded : ∀ q ∈ fs, Instr.decodeAll q.1.code = .ok q.2 ∧ q.1.code.length < 2 ^ 32 := fun q hq =>
    ⟨(bodyOf_eq_ok.mp (h.body q hq)).1, hcode q.1 (h.functions ▸ mem_map_of_mem hq)⟩
  clear h ha hlength hcode
  induction fs generalizing bodies with
  | nil =>
    obtain rfl := map_eq_nil_iff.mp hencoded
    exact ⟨rfl, fun _ hq => nomatch hq⟩
  | cons q fs ih =>
    obtain ⟨is, bodies, rfl, hfirst, hencoded⟩ := map_eq_cons_iff.mp hencoded
    obtain ⟨⟨hdecode, hshort⟩, hdecoded⟩ := forall_mem_cons.mp hdecoded
    obtain ⟨hbodies, hcode⟩ := ih hencoded hdecoded
    have hfirst : Instr.encodeAll is = q.1.code := hfirst
    rw [← hfirst] at hdecode hshort
    obtain rfl : is = q.2 := Except.ok.inj ((Instr.decodeAll_encodeAll hshort).symm.trans hdecode)
    exact ⟨by rw [map_cons, hbodies], forall_mem_cons.mpr ⟨hfirst.symm, hcode⟩⟩

end CodeUnit

namespace Assembly

open Listing

variable {u : CodeUnit} {fs : List (Func × List Instr)}

/-! ## Reading bodies -/

/-- **The second reading of a listing** reads back all bodies. -/
theorem foldlM_complete_listed (gs : List Func) {scope : Scope} {ps : List Pending} {known known' : Nat}
    (hpool : u.strings.Nodup) (himports : scope.imports = importTable u.symbols.length)
    (hspelled : ∀ q ∈ fs, q.1.Spelled) (hbody : ∀ q ∈ fs, u.bodyOf q.1 = .ok q.2)
    (hcode : ∀ q ∈ fs, q.1.code = Instr.encodeAll q.2)
    (horder : inOrder known ((fs.map Prod.snd).flatten.filterMap Instr.string?) = some known')
    (hps : Await u fs gs.length ps) :
    ps.foldlM (Pending.complete scope)
        (withPool { u with functions := gs ++ fs.map (funcHead ·.1) } u.strings known) =
      .ok (withPool { u with functions := gs ++ fs.map (·.1.relisted) } u.strings known') := by
  induction fs generalizing gs ps known with
  | nil =>
    cases hps
    cases horder
    rfl
  | cons q fs ih =>
    obtain ⟨hq, hspelled⟩ := forall_mem_cons.mp hspelled
    obtain ⟨hb, hbody⟩ := forall_mem_cons.mp hbody
    obtain ⟨hc, hcode⟩ := forall_mem_cons.mp hcode
    rw [Await, zipIdx_cons] at hps
    obtain ⟨p, ps', hp, hps', rfl⟩ := forall₂_cons_left_iff.mp hps
    rw [map_cons, flatten_cons, filterMap_append, inOrder_append,
      Option.bind_eq_some_iff] at horder
    obtain ⟨mid, hfirst, horder⟩ := horder
    have hframes : ∀ x ∈ frameTable q.1, x.Spelled := fun x hx =>
      hq.frames x ((perm_frameTable q.1).mem_iff.mp hx)
    have hget : (gs ++ (q :: fs).map (funcHead ·.1))[gs.length]? = some (funcHead q.1) := by
      simp
    have hset : (gs ++ (q :: fs).map (funcHead ·.1)).set gs.length q.1.relisted =
        (gs ++ [q.1.relisted]) ++ fs.map (funcHead ·.1) := by
      simp
    have hcomplete := complete_listed (v := { u with functions := gs ++ (q :: fs).map (funcHead ·.1) })
      hpool himports hq hframes hb hc hfirst hp hget
    rw [foldlM_cons, hcomplete]
    dsimp only
    rw [hset]
    refine (ih (gs ++ [q.1.relisted]) hspelled hbody hcode horder ?_).trans ?_
    · simpa [Await] using hps'
    · simp

/-! ## Reading listings -/

theorem exists_tokens {t rest : Text} {ws vs : List Word} (h : Renders rest ws t)
    (hrest : ∀ line, wordsFrom line rest.toChars = .ok vs) :
    ∃ ts, tokenize t = .ok ts ∧ ts.map Token.word = ws ++ vs := by
  obtain ⟨line, hwords⟩ := words_renders h 1
  rw [hrest] at hwords
  unfold tokenize
  unfold wordsFrom at hwords
  cases hts : tokensFrom 1 t.toChars with
  | error fault =>
    rw [hts] at hwords
    cases hwords
  | ok ts =>
    rw [hts] at hwords
    exact ⟨ts, rfl, Except.ok.inj hwords⟩

theorem wordsFrom_empty (line : Nat) : wordsFrom line (∅ : Text).toChars = .ok [] := by
  have hchars : (∅ : Text).toChars = [] := Text.toChars_ofChars []
  rw [hchars, wordsFrom, tokensFrom]
  rfl

/-- The words of the functions of a listing. -/
theorem Renders.functions (hu : u.Spelled) (hspelled : ∀ q ∈ fs, q.1.Spelled)
    (hcasts : ∀ q ∈ fs, ∀ i ∈ q.2, Casts u.strings i) {rest k : Text} {vs : List Word}
    (h : Renders rest vs k) :
    Renders rest (fs.flatMap (fun q => functionWords u q.1 q.2) ++ vs)
      (Text.concat (fs.map fun q => Listing.function u q.1 q.2) ++ k) := by
  induction fs with
  | nil => exact h
  | cons q fs ih =>
    obtain ⟨hq, hspelled⟩ := forall_mem_cons.mp hspelled
    obtain ⟨hqc, hcasts⟩ := forall_mem_cons.mp hcasts
    have hframes : ∀ x ∈ frameTable q.1, x.Spelled := fun x hx =>
      hq.frames x ((perm_frameTable q.1).mem_iff.mp hx)
    rw [flatMap_cons, map_cons, Text.concat_cons, append_assoc, Text.append_assoc]
    exact .function hu hq hframes hqc (ih hspelled hcasts)

theorem renders_listing (hu : u.Spelled) (hfs : u.Bodies fs)
    (hcasts : ∀ q ∈ fs, ∀ i ∈ q.2, Casts u.strings i) (hnames : ∀ s ∈ u.symbols, IsIdent s.name) :
    Renders ∅ (unitWords u fs) u.listing.text := by
  have hspelled : ∀ q ∈ fs, q.1.Spelled := fun q hq =>
    hu.functions q.1 (hfs.functions ▸ mem_map_of_mem hq)
  have hend : Renders ∅ [.closing] (Listing.line 0 ")") := by
    rw [← Text.append_empty (Listing.line 0 ")")]
    exact .line (.closing (.newline .done))
  have h := Renders.head hu hnames (Renders.functions hu hspelled hcasts hend)
  rw [hfs.listing]
  simpa only [unitWords, form, cons_append, append_assoc] using h

/-- **A listing whose symbols have identifiers for names** gives back the unit. -/
theorem parse_listing (hu : u.Spelled) (hpool : u.strings.Nodup) (hfs : u.Bodies fs)
    (hcode : ∀ q ∈ fs, q.1.code = Instr.encodeAll q.2)
    (horder : inOrder 0 ((fs.map Prod.snd).flatten.filterMap Instr.string?) = some u.strings.length)
    (hcasts : ∀ q ∈ fs, ∀ i ∈ q.2, Casts u.strings i) (hnames : ∀ s ∈ u.symbols, IsIdent s.name) :
    parse u.listing.text = .ok u.relisted := by
  obtain ⟨ts, htokens, hts⟩ := exists_tokens (renders_listing hu hfs hcasts hnames) wordsFrom_empty
  rw [append_nil] at hts
  obtain ⟨scope, ps, hscope, hps, hfirst⟩ := yields_unitWords hu hfs.functions hts
  have hspelled : ∀ q ∈ fs, q.1.Spelled := fun q hq =>
    hu.functions q.1 (hfs.functions ▸ mem_map_of_mem hq)
  have hsecond := foldlM_complete_listed [] hpool hscope hspelled hfs.body hcode horder hps
  have hstart : withPool { u with functions := [] ++ fs.map (funcHead ·.1) } u.strings 0 = outline u := by
    rw [outline, ← hfs.functions, map_map]
    rfl
  have hend : withPool { u with functions := [] ++ fs.map (·.1.relisted) } u.strings u.strings.length =
      u.relisted := by
    rw [withPool, take_length, CodeUnit.relisted, ← hfs.functions, map_map]
    rfl
  rw [hstart, hend] at hsecond
  refine Attempt.mapError_eq_ok_iff.mpr (bind_eq_ok.mpr ⟨ts, ?_, ?_⟩)
  · rw [htokens]
    rfl
  · exact bind_eq_ok.mpr ⟨_, hfirst, hsecond⟩

/-! ## Names that are no identifiers -/

theorem eq_of_map_cons {x : Except TokenFault (List Word)} {v w : Word} {ws : List Word}
    (h : x.map (v :: ·) = .ok (w :: ws)) : w = v := by
  cases x with
  | error => cases h
  | ok =>
    cases h
    rfl

/-- A name that is no identifier is read as a number, or not at all. -/
theorem kind_of_not_isIdent {name k : Text} {line : Nat} {w : Word} {ws : List Word}
    (hname : IsWord name) (hnot : ¬IsIdent name)
    (hk : ∀ line w ws, wordsFrom line k.toChars = .ok (w :: ws) → w.kind ≠ .ident)
    (h : wordsFrom line (name ++ k).toChars = .ok (w :: ws)) : w.kind ≠ .ident := by
  obtain ⟨cs, rfl, hcs⟩ := hname
  cases cs with
  | nil => exact hk line w ws h
  | cons c cs =>
    obtain ⟨hc, hcs⟩ := forall_mem_cons.mp hcs
    have hnumber : startsNumber c = true := by
      by_contra hstart
      refine hnot (isIdent_iff.mpr ⟨c :: cs, rfl, ?_⟩)
      rw [isIdentChars, hc, all_eq_true.mpr hcs]
      simpa using hstart
    rw [toChars_ofChars_append, cons_append, wordsFrom_of_isIdentChar hc, if_pos hnumber] at h
    rw [eq_of_map_cons h]
    rintro ⟨⟩

/-- What follows the name of a symbol starts with a parenthesis. -/
theorem kind_of_signature {params : List Ty} {result : Ty} {k : Text} {line : Nat} {w : Word}
    {ws : List Word}
    (h : wordsFrom line (signature params result ++ (")" ++ k)).toChars = .ok (w :: ws)) :
    w.kind ≠ .ident := by
  have hopening (t : Text) (h : wordsFrom line (" (" ++ t).toChars = .ok (w :: ws)) : w.kind ≠ .ident := by
    rw [show (" (" : Text) = Text.ofChars [' ', '('] from rfl, toChars_ofChars_append, cons_append,
      wordsFrom_blank, cons_append, wordsFrom_opening] at h
    rw [eq_of_map_cons h]
    rintro ⟨⟩
  have hparam : (" (param" : Text) = " (" ++ "param" := rfl
  have hresult : (" (result " : Text) = " (" ++ "result " := rfl
  unfold signature at h
  split at h
  · split at h
    · rw [Text.empty_append, Text.empty_append, show (")" : Text) = Text.ofChar ')' from rfl,
        toChars_ofChar_append, wordsFrom_closing] at h
      rw [eq_of_map_cons h]
      rintro ⟨⟩
    · rw [Text.empty_append, hresult] at h
      simp only [Text.append_assoc] at h
      exact hopening _ h
  · rw [hparam] at h
    simp only [Text.append_assoc] at h
    exact hopening _ h

/-- The start of a listing, up to the first symbol whose name is no identifier. -/
theorem renders_listing_upto (hu : u.Spelled) {good more : List Symbol} {s : Symbol}
    (hsymbols : u.symbols = good ++ s :: more) (hgood : ∀ x ∈ good, IsIdent x.name) :
    ∃ k, Renders (s.name ++ (signature s.params s.result ++ (")" ++ k)))
      (.opening :: .ident "unit" :: (u.classes.flatMap classWords ++
        (good.zipIdx.flatMap (fun q => symbolWords q.2 q.1) ++
          [.opening, .ident "import", .ident (symbolId good.length), .ident (ownerText s)])))
      u.listing.text := by
  have hunit : ("(unit" : Text) = "(" ++ "unit" := rfl
  have hs : s.Spelled := hu.symbols s (hsymbols ▸ mem_append_right _ mem_cons_self)
  have hspelled : ∀ q ∈ good.zipIdx, q.1.Spelled ∧ IsIdent q.1.name := fun q hq =>
    have hmem := fst_mem_of_mem_zipIdx hq
    ⟨hu.symbols _ (hsymbols ▸ mem_append_left _ hmem), hgood _ hmem⟩
  have hlines : Text.concat (u.symbols.zipIdx.map fun q => line 1 (Listing.symbol q.2 q.1)) =
      Text.concat (good.zipIdx.map fun q => line 1 (Listing.symbol q.2 q.1)) ++
        (line 1 (Listing.symbol good.length s) ++
          Text.concat ((more.zipIdx (good.length + 1)).map fun q => line 1 (Listing.symbol q.2 q.1))) := by
    rw [hsymbols, zipIdx_append, zipIdx_cons, map_append, map_cons, Text.concat_append,
      Text.concat_cons, Nat.zero_add]
  have hlisting : u.listing.text = line 0 "(unit" ++ (Text.concat (u.classes.map fun c =>
      line 1 (Listing.classDecl c)) ++ (Text.concat (u.symbols.zipIdx.map fun q =>
        line 1 (Listing.symbol q.2 q.1)) ++ (Text.concat (u.records.map fun l => line 1 (layout l)) ++
          (u.listFunctions u.functions).text))) := by
    simp only [CodeUnit.listing, Listing.head, Text.append_assoc]
  have htext (k : Text) : Listing.symbol good.length s ++ k = "(import $sym" ++ (Text.ofNat good.length ++
      (" " ++ (ownerText s ++ (" " ++ (s.name ++ (signature s.params s.result ++ (")" ++ k))))))) := by
    simp only [Listing.symbol, ownerText, Text.append_assoc]
  rw [hlisting, hlines]
  simp only [Text.append_assoc]
  apply Exists.intro
  refine .line ?_
  simp only [hunit, Text.append_assoc]
  refine .opening (.ident (by decide +kernel) (delimited_newline _) (.newline ?_))
  refine Renders.lines 1 .classDecl hu.classes ?_
  refine Renders.lines 1 (fun {q} {_ _} hq => .symbol q.2 hq.1 hq.2) hspelled ?_
  refine .line ?_
  rw [htext]
  exact .importHead hs .done

theorem tokens_of_renders {t rest : Text} {ws : List Word} {ts : List Token} (h : Renders rest ws t)
    (hts : tokenize t = .ok ts) :
    ∃ line vs, wordsFrom line rest.toChars = .ok vs ∧ ts.map Token.word = ws ++ vs := by
  obtain ⟨line, hwords⟩ := words_renders h 1
  unfold tokenize at hts
  rw [wordsFrom, hts] at hwords
  cases hvs : wordsFrom line rest.toChars with
  | error fault =>
    rw [hvs] at hwords
    cases hwords
  | ok vs =>
    rw [hvs] at hwords
    exact ⟨line, vs, hvs, Except.ok.inj hwords⟩

/-- An import is rejected if no identifier stands where its name is expected. -/
theorem name_of_importDecl {d d' : Draft} {ts ts' : List Token} {t₁ t₂ t₃ t₄ : Token}
    (h : Yields DraftParser.importDecl d (t₁ :: t₂ :: t₃ :: t₄ :: ts) () d' ts') :
    ∃ t rest, ts = t :: rest ∧ t.kind = .ident := by
  simp only [DraftParser.importDecl, ↓yields_lift_bind, yields_bind, yields_lift, Parser.gives_skip,
    Parser.gives_expect, yields_unless, yields_get] at h
  obtain ⟨_, _, _, ⟨rfl, rfl⟩, _, _, ⟨hid, -⟩, -, _, _, _, ⟨rfl, rfl, rfl⟩, -, _, _, ⟨howner, -⟩, t, rest,
    ⟨hname, hkind⟩, -⟩ := h
  cases hid
  cases howner
  exact ⟨t, rest, hname, hkind⟩

/-- **A listing is rejected** if it has a symbol whose name is no identifier. -/
theorem isIdent_of_parse_listing (hu : u.Spelled) {v : CodeUnit} (h : parse u.listing.text = .ok v) :
    ∀ s ∈ u.symbols, IsIdent s.name := by
  intro s hs
  by_contra hnot
  -- The first such symbol.
  obtain ⟨s, hfind⟩ : ∃ s, u.symbols.find? (fun s => !decide (IsIdent s.name)) = some s :=
    Option.isSome_iff_exists.mp (find?_isSome.mpr ⟨s, hs, by simpa using hnot⟩)
  obtain ⟨hbad, good, more, hsymbols, hgood⟩ := find?_eq_some_iff_append.mp hfind
  simp only [Bool.not_eq_true', decide_eq_false_iff_not] at hbad
  simp only [Bool.not_not, decide_eq_true_eq] at hgood
  obtain ⟨k, hrenders⟩ := renders_listing_upto hu hsymbols hgood
  obtain ⟨tokens, draft, hparsed⟩ := exists_parsed h
  obtain ⟨line, vs, hvs, htokens⟩ := tokens_of_renders hrenders hparsed.lexing
  -- The reading comes to its import.
  simp only [cons_append, append_assoc, nil_append] at htokens
  obtain ⟨m, ts₁, rfl, h₁⟩ := exists_of_words htokens
  obtain ⟨n, ts₂, rfl, h₂⟩ := exists_of_words h₁
  have hmem : ∀ x ∈ good, x ∈ u.symbols := fun x hx => hsymbols ▸ mem_append_left _ hx
  have hdistinct : (good.map Symbol.text).Nodup := by
    have h := hu.distinct
    rw [hsymbols, map_append] at h
    exact h.of_append_left
  obtain ⟨ts₃, h₃, hclasses⟩ := advances_classes (d := {}) hu.classes h₂
  obtain ⟨ts₄, h₄, hadvances⟩ := advances_symbols (d := { unit := { classes := u.classes } })
    (fun x hx => hu.symbols x (hmem x hx)) hdistinct rfl h₃
  have hread := yields_unit_iff.mp hparsed.first
  obtain ⟨m₁, ts₅, rfl, h₅⟩ := exists_of_words h₄
  obtain ⟨m₂, ts₆, rfl, h₆⟩ := exists_of_words h₅
  obtain ⟨m₃, ts₇, rfl, h₇⟩ := exists_of_words h₆
  obtain ⟨m₄, ts₈, rfl, h₈⟩ := exists_of_words h₇
  have hboth := hclasses.trans hadvances
  obtain ⟨most, hmost⟩ := Nat.exists_eq_add_of_le' hboth.shorter
  have hfuel : ts₂.length + 2 = most + ts₈.length + 5 + 1 + (good.length + u.classes.length) := by
    rw [hmost]
    simp only [length_cons]
    omega
  rw [hfuel, hboth.yields_iff] at hread
  have hfield : ("import" : Text) ∈ fieldNames := by simp [fieldNames]
  obtain ⟨_, _, _, himport, -⟩ := yields_bind.mp ((yields_fields_succ hfield).mp hread)
  obtain ⟨t, rest, rfl, hkind⟩ := name_of_importDecl himport
  rw [← h₈] at hvs
  refine kind_of_not_isIdent (hu.symbols s ?_).name hbad (fun _ _ _ => kind_of_signature) hvs hkind
  rw [hsymbols]
  exact mem_append_right _ mem_cons_self

/-! ## The round trip -/

/-- **Listings assemble again.** A unit that was read from text, and whose bodies pass their checks, is
listed without an error. Its listing is accepted just when every symbol is named by an identifier; what
it describes is then the unit itself but for the order of frames, and has the same listing. -/
theorem parse_listing_iff {source : Text} (h : parse source = .ok u)
    (hbodies : ∀ f ∈ u.functions, ∃ is, u.bodyOf f = .ok is) (hstrings : u.strings.length ≤ 2 ^ 32)
    (hcode : ∀ f ∈ u.functions, f.code.length < 2 ^ 32) :
    u.listing.error = none ∧
      (∀ v, parse u.listing.text = .ok v ↔ v = u.relisted ∧ ∀ s ∈ u.symbols, IsIdent s.name) ∧
      u.relisted.listing = u.listing ∧ ∀ f ∈ u.functions, f.relisted.frames.Perm f.frames := by
  obtain ⟨tokens, draft, hparsed⟩ := exists_parsed h
  obtain ⟨⟨bodies, hlength, hassembled⟩, -⟩ := hparsed.assembled
  obtain ⟨fs, hfs⟩ := CodeUnit.exists_bodies hbodies
  obtain ⟨rfl, hencoded⟩ := hfs.assembled hassembled hlength hcode
  obtain ⟨horder, hcasts⟩ := hassembled.ordered hstrings
  have hcasts' : ∀ q ∈ fs, ∀ i ∈ q.2, Casts u.strings i := fun q hq i hi =>
    hcasts i (List.mem_flatten.mpr ⟨q.2, List.mem_map_of_mem hq, hi⟩)
  refine ⟨by rw [hfs.listing], fun v => ⟨fun hv => ?_, ?_⟩, hfs.listing_relisted,
    fun f _ => perm_frameTable f⟩
  · have hnames := isIdent_of_parse_listing hassembled.spelled hv
    have hu := parse_listing hassembled.spelled hassembled.nodup hfs hencoded horder hcasts' hnames
    exact ⟨Except.ok.inj (hv.symm.trans hu), hnames⟩
  · rintro ⟨rfl, hnames⟩
    exact parse_listing hassembled.spelled hassembled.nodup hfs hencoded horder hcasts' hnames

/-- A unit with frames out of order, a handler, a switch, and strings that are shared by bodies. -/
def workSource : Text :=
  "(unit (class Reply Error) (import $mail Mail send (param String) (result Object)) " ++
    "(record work 0 (fields int Reply)) (func $work (param int Object) (result Object) (stack 3) " ++
    "(frame 4 (locals int Object) (stack)) (frame 1 (locals int top) (stack int)) " ++
    "(catch $try $end $end Reply (region 7)) (label $try) load 0 switch -1 ($try $end) $end " ++
    "(label $end) sconst \"a\\tb\" invoke $mail checkcast Reply retval) " ++
    "(func $main (flags continuation) (locals 2) sconst \"x\" sconst \"a\\tb\" invoke $log return) " ++
    "(func $log (param String String) return))"

theorem parse_listing_iff_work :
    ∃ u, parse workSource = .ok u ∧ u.listing.error = none ∧ parse u.listing.text = .ok u.relisted ∧
      u.relisted ≠ u ∧ u.relisted.listing = u.listing := by
  have hfacts : (parse workSource).toOption.map (fun u => decide (
      (∀ f ∈ u.functions, (u.bodyOf f).toOption.isSome) ∧ u.strings.length ≤ 2 ^ 32 ∧
        (∀ f ∈ u.functions, f.code.length < 2 ^ 32) ∧ (∀ s ∈ u.symbols, IsIdent s.name) ∧
        u.relisted ≠ u)) = some true := by decide +kernel
  obtain ⟨u, hu, hfacts⟩ := Option.map_eq_some_iff.mp hfacts
  obtain ⟨hbodies, hstrings, hcode, hnames, hne⟩ := of_decide_eq_true hfacts
  have hparse := toOption_eq_some.mp hu
  obtain ⟨herror, hiff, hsame, -⟩ := parse_listing_iff hparse (fun f hf => by
    obtain ⟨is, his⟩ := Option.isSome_iff_exists.mp (hbodies f hf)
    exact ⟨is, toOption_eq_some.mp his⟩) hstrings hcode
  exact ⟨u, hparse, herror, (hiff _).mpr ⟨rfl, hnames⟩, hne, hsame⟩

/-- **A function can have a name that is no identifier**, because only its `$` makes it one; a call makes
the name that of a symbol, and the listing of the unit is rejected. -/
theorem listing_of_signed_name_rejected :
    ∃ u, parse "(unit (func $-f return) (func $g invoke $-f return))" = .ok u ∧
      u.functions.map (u.bodyOf ·) = [.ok [.ret], .ok [.invoke 0, .ret]] ∧ u.listing.error = none ∧
      (parse u.listing.text).toOption = none := by
  refine ⟨{ symbols := [⟨∅, "-f", [], .void⟩], functions := [
    { name := "-f", code := [0x50] }, { name := "g", code := [0x40, 0x00, 0x50] }] }, ?_⟩
  decide +kernel

end Assembly

end Resumable
