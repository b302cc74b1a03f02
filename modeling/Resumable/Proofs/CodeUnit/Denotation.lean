import Resumable.Proofs.Assembly.Assembled
import Resumable.Proofs.CodeUnit.Descriptor
import Resumable.Proofs.Emission.Tables
import Resumable.Proofs.Transform.Effect

/-!
# What the index of a symbol stands for

Interning finds a symbol by its descriptor. So the entry that it gives is written like the symbol that
was asked for, and it is that symbol if both are legible. Two places rely on it: state machines, which
call the runtime, and imports of assembly. In assembly a word holds no sign that divides a descriptor
but the dot, so only the border between owner and name can be in doubt.
-/

namespace Resumable

open Assembly List

/-! ## Interning -/

namespace CodeUnit

variable {u : CodeUnit} {s : Symbol}

/-- **An interned symbol is found again** where all entries that are written like it are legible. -/
theorem item?_addSymbol_of_legible (hs : s.Legible)
    (hu : ∀ x ∈ u.symbols, x.text = s.text → x.Legible)
    (h : (u.addSymbol s).2.symbols.length ≤ 2 ^ 32) :
    item? (u.addSymbol s).2.symbols (u.addSymbol s).1 = some s := by
  obtain ⟨x, hx, htext⟩ := item?_addSymbol h
  have hmem : x ∈ u.symbols ∨ x = s := by
    have hx := mem_of_getElem? hx
    rcases u.addSymbol_eq_or s with heq | heq <;> rw [heq] at hx
    · exact .inl hx
    · exact (mem_append.mp hx).imp_right mem_singleton.mp
  rcases hmem with hmem | rfl
  · rw [hx, Symbol.eq_of_text_eq (hu x hmem htext) hs htext]
  · exact hx

theorem legible_runtimeCalls : ∀ r ∈ runtimeCalls, r.Legible := by decide +kernel

theorem runtimeDistinct_of_legible
    (hu : ∀ x ∈ u.symbols, ∀ r ∈ runtimeCalls, x.text = r.text → x.Legible) : u.RuntimeDistinct :=
  fun x hx r hr htext =>
    Symbol.eq_of_text_eq (hu x hx r hr htext) (legible_runtimeCalls r hr) htext

end CodeUnit

/-! ## State machines -/

namespace Transform

/-- A state machine with its continuation: they are made from an emission, and the calls that this
refers to are those of the runtime. -/
def CallsRuntime (u : CodeUnit) (f c : Func) : Prop :=
  ∃ (e : Emission) (a : Analyzer), e.functions a = .ok (f, c) ∧
    item? u.symbols e.isDone = some RuntimeCall.isDone ∧
    item? u.symbols e.join = some RuntimeCall.join ∧
    item? u.symbols e.suspend = some RuntimeCall.suspend ∧
    item? u.symbols e.newError = some RuntimeCall.newError

variable {o : TransformOptions} {classes : Hierarchy} {p p' : Progress} {n : Nat}

/-- The state machines that were made before function `n`, in all units that extend this one. -/
structure Calling (n : Nat) (p : Progress) : Prop where
  distinct : p.unit.RuntimeDistinct
  calls : ∀ c ∈ p.continuations, ∃ k f, k < n ∧ p.unit.functions[k]? = some f ∧
    ∀ w, p.unit.Extends w → w.Indexed → CallsRuntime w f c

theorem Calling.advance (h : Calling n p) (hp : (advance o classes p n).Returns p') :
    Calling (n + 1) p' := by
  unfold Transform.advance at hp
  obtain ⟨f, hf, hp⟩ := hp.bind
  obtain ⟨r, hr, hp⟩ := hp.bind
  have hf := Attempt.ofOption_eq_ok.mp hf.orElse
  obtain ⟨-, rfl⟩ | ⟨is, plan, f', c, -, rfl, hfunctions⟩ := function_returns hr
  · obtain rfl := Journaled.Returns.pure hp
    refine ⟨h.distinct, fun c hc => ?_⟩
    obtain ⟨k, f, hk, hrest⟩ := h.calls c hc
    exact ⟨k, f, Nat.lt_succ_of_lt hk, hrest⟩
  · obtain rfl := Journaled.Returns.pure hp
    obtain ⟨hext, hdistinct, hprepared⟩ := Emission.prepare_grows f is plan p.unit h.distinct
    obtain ⟨-, hsame⟩ := Emission.prepare_adds f is plan p.unit
    generalize Emission.prepare f is plan p.unit = prepared at *
    refine ⟨hdistinct, fun c' hc => ?_⟩
    rcases mem_append.mp hc with hc | hc
    · obtain ⟨k, g, hk, hg, hcalls⟩ := h.calls c' hc
      refine ⟨k, g, Nat.lt_succ_of_lt hk, ?_, fun w hw => hcalls w (hext.trans ⟨hw.1, hw.2, hw.3⟩)⟩
      rw [getElem?_set_ne (Nat.ne_of_gt hk), hsame]
      exact hg
    · obtain rfl := mem_singleton.mp hc
      refine ⟨n, f', Nat.lt_succ_self n, ?_, fun w hw hi => ?_⟩
      · rw [getElem?_set_self (hsame ▸ lt_of_getElem? hf)]
      · obtain ⟨-, -, -, he⟩ := hprepared w ⟨hw.1, hw.2, hw.3⟩ hi
        exact ⟨prepared.1, _, hfunctions, he.isDone, he.join, he.suspend, he.newError⟩

/-- **State machines call the runtime**, whichever functions of a unit are done. -/
theorem callsRuntime_of_foldlM {u : CodeUnit} (hu : u.RuntimeDistinct)
    (hp : ((range n).foldlM (advance o classes) { unit := u }).Returns p) (hi : p.unit.Indexed) :
    ∀ c ∈ p.continuations, ∃ f ∈ p.unit.functions, CallsRuntime p.unit f c := by
  have h : Calling n p := hp.foldlM_range Calling ⟨hu, fun _ hc => nomatch hc⟩
    fun k q q' _ hq hstep => hq.advance hstep
  intro c hc
  obtain ⟨k, f, -, hf, hcalls⟩ := h.calls c hc
  exact ⟨f, mem_of_getElem? hf, hcalls p.unit (.refl p.unit) hi⟩

end Transform

/-! ## Assembly -/

namespace Assembly

/-- A word holds no sign but those of an identifier. -/
theorem IsWord.not_mem {t : Text} (h : IsWord t) {b : UInt8} (hb : b.toNat < 128)
    (hsign : isIdentChar (Char.ofNat b.toNat) = false) : b ∉ t.bytes := by
  obtain ⟨cs, rfl, hcs⟩ := h
  rw [Text.bytes_ofChars]
  intro hmem
  obtain ⟨c, hc, hmem⟩ := mem_flatMap.mp hmem
  rw [← Text.toNat_of_mem_utf8EncodeChar hmem hb, Char.ofNat_toNat] at hsign
  exact Bool.eq_false_iff.mp hsign (hcs c hc)

end Assembly

theorem Ty.Spelled.listed {t : Ty} (h : t.Spelled) : t.Listed := by
  refine ⟨?_, h.ident.isWord.not_mem (by decide) (by decide),
    h.ident.isWord.not_mem (by decide) (by decide), h.denoted⟩
  intro hempty
  have := h.ident
  rw [hempty] at this
  exact absurd this (by decide +kernel)

/-- **Descriptors of assembled symbols** fall into their parts in one way only. -/
theorem Symbol.Spelled.divided {s : Symbol} (h : s.Spelled) : s.Divided := by
  refine ⟨?_, fun t ht => (h.params t ht).listed, h.result.denoted⟩
  have hname : Sign.opening ∉ s.name.bytes := h.name.not_mem (by decide) (by decide)
  unfold key
  split
  next => exact hname
  next hne =>
    rcases h.owner with howner | ⟨howner, -⟩
    · exact absurd (by rw [howner]; rfl) hne
    · rw [Text.bytes_append, Text.bytes_append, mem_append, mem_append]
      rintro ((hmem | hmem) | hmem)
      · exact howner.isWord.not_mem (by decide) (by decide) hmem
      · exact absurd hmem (by decide)
      · exact hname hmem

namespace Assembly

/-- The entry `x` stands for the import `s`: owner and name read the same with a dot between them, and
all the rest is equal. -/
structure StandsFor (x s : Symbol) : Prop where
  key : x.key = s.key
  params : x.params = s.params
  result : x.result = s.result
  eq : x.Qualified → s.Qualified → x = s

theorem standsFor_of_text_eq {x s : Symbol} (hx : x.Spelled) (hs : s.Spelled) (h : x.text = s.text) :
    StandsFor x s := by
  obtain ⟨hkey, hparams, hresult⟩ := (Symbol.text_eq_iff hx.divided hs.divided).mp h
  exact ⟨hkey, hparams, hresult, fun hqx hqs => Symbol.eq_of_text_eq ⟨hx.divided, hqx⟩ ⟨hs.divided, hqs⟩ h⟩

/-- An import of the text, with the index that its identifier stands for. -/
structure Imported (tokens : List Token) (symbols : List Symbol) (id : Text) (i : UInt32) : Prop where
  written : ∃ ts s ts' x, ts <:+ tokens ∧ ImportForm ts id s ts' ∧ s.Spelled ∧
    item? symbols i = some x ∧ x.text = s.text

theorem Imported.mono {tokens : List Token} {symbols symbols' : List Symbol} {id : Text} {i : UInt32}
    (h : Imported tokens symbols id i) (hs : symbols <+: symbols') : Imported tokens symbols' id i := by
  obtain ⟨ts, s, ts', x, hts, hform, hspelled, hx, htext⟩ := h
  exact ⟨ts, s, ts', x, hts, hform, hspelled, item?_mono hs hx, htext⟩

theorem Reading.imported {tokens : List Token} {d : Draft} (h : Reading tokens d)
    (hle : d.unit.symbols.length ≤ 2 ^ 32) :
    ∀ b ∈ d.scope.imports, Imported tokens d.unit.symbols b.1 b.2 := by
  induction h with
  | start => exact fun _ hb => nomatch hb
  | @step ts d d' hd hts hstep ih =>
    cases hstep with
    | classDecl hc => exact ih hle
    | @importDecl id s ts' hform hs =>
      have hgrows := d.unit.symbols_prefix_addSymbol s
      refine forall_mem_append_singleton ?_ ?_
      · exact fun b hb => (ih (Nat.le_trans hgrows.length_le hle) b hb).mono hgrows
      · obtain ⟨x, hx, htext⟩ := CodeUnit.item?_addSymbol hle
        exact ⟨ts, s, ts', x, hts, hform, hs, hx, htext⟩
    | record hl => exact ih hle
    | function hf hcode hnew hbody => exact ih hle

/-- **An import stands for what was written**, up to the place of a dot. -/
theorem Parsed.imports {source : Text} {tokens : List Token} {draft : Draft} {u : CodeUnit}
    (h : Parsed source tokens draft u) (hle : u.symbols.length ≤ 2 ^ 32) :
    ∀ b ∈ draft.scope.imports, ∃ ts s ts' x, ts <:+ tokens ∧ ImportForm ts b.1 s ts' ∧
      item? u.symbols b.2 = some x ∧ StandsFor x s := by
  intro b hb
  obtain ⟨⟨_, -, hu⟩, hprefix⟩ := h.assembled
  have himported := h.reading.imported (Nat.le_trans hprefix.length_le hle) b hb
  obtain ⟨ts, s, ts', x, hts, hform, hs, hx, htext⟩ := himported.mono hprefix
  have hx' := hu.spelled.symbols x (mem_of_getElem? hx)
  exact ⟨ts, s, ts', x, hts, hform, hx, standsFor_of_text_eq hx' hs htext⟩

end Assembly

/-! ## All places together -/

namespace CodeUnit

/-- **What the index of a symbol stands for.** Interning adds at most one entry, at the end, and gives
an entry that is written like the symbol; it is the symbol, if all that is written like it is legible.
So state machines call the runtime, and imports of assembly are those of the text, if names hold no
dots. -/
theorem addSymbol_denotes (u : CodeUnit) :
    (∀ s : Symbol, u.symbols.length < 2 ^ 32 →
      ((u.addSymbol s).2 = u ∨ (u.addSymbol s).2 = { u with symbols := u.symbols ++ [s] }) ∧
      (∃ x, item? (u.addSymbol s).2.symbols (u.addSymbol s).1 = some x ∧ x.text = s.text) ∧
      (s.Legible → (∀ x ∈ u.symbols, x.text = s.text → x.Legible) →
        item? (u.addSymbol s).2.symbols (u.addSymbol s).1 = some s)) ∧
    (∀ (o : TransformOptions) (n : Nat) (p : Transform.Progress),
      (∀ x ∈ u.symbols, ∀ r ∈ runtimeCalls, x.text = r.text → x.Legible) →
      ((List.range n).foldlM (Transform.advance o (u.hierarchy o.loader)) { unit := u }).Returns p →
      p.unit.Indexed →
      ∀ c ∈ p.continuations, ∃ f ∈ p.unit.functions, Transform.CallsRuntime p.unit f c) ∧
    (∀ source : Text, Assembly.parse source = .ok u → u.symbols.length ≤ 2 ^ 32 →
      ∃ tokens draft, Parsed source tokens draft u ∧
        ∀ b ∈ draft.scope.imports, ∃ ts s ts' x, ts <:+ tokens ∧ ImportForm ts b.1 s ts' ∧
          item? u.symbols b.2 = some x ∧ StandsFor x s) := by
  refine ⟨fun s hlt => ?_, fun o n p hu hp hi => ?_, fun source hparse hle => ?_⟩
  · have hle : (u.addSymbol s).2.symbols.length ≤ 2 ^ 32 := by
      rcases u.addSymbol_eq_or s with heq | heq <;> rw [heq]
      · exact Nat.le_of_lt hlt
      · rwa [List.length_append]
    exact ⟨u.addSymbol_eq_or s, item?_addSymbol hle, fun hs hu => item?_addSymbol_of_legible hs hu hle⟩
  · exact Transform.callsRuntime_of_foldlM (runtimeDistinct_of_legible hu) hp hi
  · obtain ⟨tokens, draft, hparsed⟩ := exists_parsed hparse
    exact ⟨tokens, draft, hparsed, hparsed.imports hle⟩

/-- An import whose owner has dots. -/
def boxSource : Text :=
  "(unit (import $get com.example.Box get (result Object)) (func $f invoke $get pop return))"

theorem addSymbol_denotes_mixed :
    item? (Transform.mixedUnit.addSymbol RuntimeCall.join).2.symbols
        (Transform.mixedUnit.addSymbol RuntimeCall.join).1 = some RuntimeCall.join ∧
      (∃ p, ((List.range 2).foldlM (Transform.advance {} (Transform.mixedUnit.hierarchy .none))
          { unit := Transform.mixedUnit }).Returns p ∧ p.continuations.length = 1 ∧
        ∀ c ∈ p.continuations, ∃ f ∈ p.unit.functions, Transform.CallsRuntime p.unit f c) ∧
      ∃ u tokens draft, Parsed boxSource tokens draft u ∧
        ∀ b ∈ draft.scope.imports, ∃ ts s ts' x, ts <:+ tokens ∧ ImportForm ts b.1 s ts' ∧
          item? u.symbols b.2 = some x ∧ StandsFor x s := by
  obtain ⟨hintern, hmachines, -⟩ := addSymbol_denotes Transform.mixedUnit
  refine ⟨(hintern _ (by decide)).2.2 (by decide +kernel) (by decide +kernel), ?_, ?_⟩
  · have hrun : (((List.range 2).foldlM (Transform.advance {} (Transform.mixedUnit.hierarchy .none))
        { unit := Transform.mixedUnit }).outcome.1.toOption.map fun p =>
          (p.continuations.length, p.unit.strings.length, p.unit.symbols.length,
            p.unit.records.length)) = some (1, 8, 5, 2) := by decide +kernel
    obtain ⟨p, hp, hlengths⟩ := Option.map_eq_some_iff.mp hrun
    simp only [Prod.mk.injEq] at hlengths
    have hreturns := Journaled.returns_of_outcome (toOption_eq_some.mp hp)
    exact ⟨p, hreturns, hlengths.1, hmachines {} 2 p (by decide +kernel) hreturns
      ⟨by omega, by omega, by omega⟩⟩
  · have hparse : (Assembly.parse boxSource).toOption.map (·.symbols.length) = some 1 := by
      decide +kernel
    obtain ⟨u, hu, hlength⟩ := Option.map_eq_some_iff.mp hparse
    exact ⟨u, (addSymbol_denotes u).2.2 boxSource (toOption_eq_some.mp hu) (by omega)⟩

/-- **An import can stand for another one**: `$join` is declared with the owner `Future`, and the call
goes to a function `Future.join` of the unit itself. The runtime call is not found either. -/
theorem import_loses_owner :
    ∃ u, Assembly.parse ("(unit (import $own . Future.join (param Future) (result Object)) " ++
        "(import $join Future join (param Future) (result Object)) " ++
        "(func $f (param Future) (result Object) load 0 invoke $join retval))") = .ok u ∧
      u.symbols = [⟨∅, "Future.join", [.ref "Future"], .ref "Object"⟩] ∧
      u.functions.map (u.bodyOf ·) = [.ok [.load 0, .invoke 0, .retval]] ∧
      item? (u.addSymbol RuntimeCall.join).2.symbols (u.addSymbol RuntimeCall.join).1 ≠
        some RuntimeCall.join := by
  refine ⟨{ symbols := [⟨∅, "Future.join", [.ref "Future"], .ref "Object"⟩], functions := [
    { name := "f", params := [.ref "Future"], result := .ref "Object"
      code := [0x10, 0x00, 0x40, 0x00, 0x51], maxStack := 1, maxLocals := 1 }] }, ?_⟩
  decide +kernel

end CodeUnit

end Resumable
