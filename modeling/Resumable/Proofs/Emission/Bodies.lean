import Resumable.Emission.Function
import Resumable.Proofs.CodeUnit.Body
import Resumable.Proofs.Emission.Supply
import Resumable.Proofs.Instr.Codec

/-!
# The bodies of a state machine

Both functions of a state machine can be read back from their bytes and pass the checks of a body:
their branches lead into them, their locals are enough and their operands refer to what was put into
the tables.
-/

namespace Resumable

open Fragment List

/-! ## Locals -/

theorem localsNeeded_spec (is : List Instr) (params : Nat) (floor : UInt32) :
    floor ≤ localsNeeded is params floor ∧
      (params < 2 ^ 32 → params ≤ (localsNeeded is params floor).toNat) ∧
      ∀ n ∈ is.filterMap Instr.slot?, n.toNat + 1 < 2 ^ 32 → n < localsNeeded is params floor := by
  have hfold : ∀ (slots : List UInt32) (n : UInt32),
      n ≤ slots.foldl (fun n slot => if n < slot + 1 then slot + 1 else n) n ∧
        ∀ m ∈ slots, m.toNat + 1 < 2 ^ 32 →
          m < slots.foldl (fun n slot => if n < slot + 1 then slot + 1 else n) n := by
    intro slots
    induction slots with
    | nil => exact fun n => ⟨UInt32.le_refl n, by simp⟩
    | cons slot slots ih =>
      intro n
      obtain ⟨h1, h2⟩ := ih (if n < slot + 1 then slot + 1 else n)
      have hstep : n ≤ (if n < slot + 1 then slot + 1 else n) ∧
          slot + 1 ≤ (if n < slot + 1 then slot + 1 else n) := by
        split
        next h => exact ⟨UInt32.le_of_lt h, UInt32.le_refl _⟩
        next h => exact ⟨UInt32.le_refl n, UInt32.not_lt.mp h⟩
      refine ⟨UInt32.le_trans hstep.1 h1, fun m hm hsmall => ?_⟩
      rcases mem_cons.mp hm with rfl | hm
      · refine UInt32.lt_of_lt_of_le ?_ (UInt32.le_trans hstep.2 h1)
        rw [UInt32.lt_iff_toNat_lt, UInt32.toNat_add]
        simp
        omega
      · exact h2 m hm hsmall
  obtain ⟨h1, h2⟩ := hfold (is.filterMap Instr.slot?)
    (if floor < UInt32.ofNat params then UInt32.ofNat params else floor)
  have hstart : floor ≤ (if floor < UInt32.ofNat params then UInt32.ofNat params else floor) ∧
      UInt32.ofNat params ≤ (if floor < UInt32.ofNat params then UInt32.ofNat params else floor) := by
    split
    next h => exact ⟨UInt32.le_of_lt h, UInt32.le_refl _⟩
    next h => exact ⟨UInt32.le_refl _, UInt32.not_lt.mp h⟩
  refine ⟨UInt32.le_trans hstart.1 h1, fun hp => ?_, h2⟩
  have := UInt32.le_iff_toNat_le.mp (UInt32.le_trans hstart.2 h1)
  rwa [UInt32.toNat_ofNat_of_lt' hp] at this

/-! ## What a plan and its code rest on -/

/-- The code of a state machine, with all that is known of the function that it is made from. -/
structure Emission.Planned (e : Emission) (u : CodeUnit) (l : Liveness) (ctx : TypingContext)
    (sites : List Nat) (after : Nat → UInt32 → Prop) : Prop where
  prepared : e.Prepared u
  extended : l.unit.Extends u
  indexed : u.Indexed
  code : e.body = l.body
  checked : l.unit.bodyOf e.function = .ok l.body
  locals : l.locals = e.function.maxLocals.toNat
  fits : l.Fits ctx e.function.handlers (sites.map Int.ofNat) (Analyzer.entryFrame e.function)
  plan : e.plan.Fits l sites after
  nonempty : e.plan.points ≠ []
  roomy : e.Roomy

namespace Emission

variable {e : Emission} {u : CodeUnit} {l : Liveness} {ctx : TypingContext} {sites : List Nat}
  {after : Nat → UInt32 → Prop} {frag : Fragment Place} {hs : List Handler} {is : List Instr}
  {f : Func}

/-- A number that all locals of the emitted code are less than. -/
def localsBound (e : Emission) : UInt32 := UInt32.ofNat (e.plan.locals + e.deepest + 5)

section

variable (hp : e.Planned u l ctx sites after) {s : Stop} {k : Nat} {i : Instr}

include hp

theorem Planned.toNat_localsBound : e.localsBound.toNat = e.plan.locals + e.deepest + 5 :=
  UInt32.toNat_ofNat_of_lt' hp.roomy

theorem Planned.divides :
    e.graph.Divides e.body e.function.handlers (sites.map Int.ofNat) := by
  rw [graph, hp.plan.analysis, hp.code]
  exact hp.fits.divides

/-- The point of a stop. -/
theorem Planned.point (hs : s ∈ e.stops) :
    s.point ∈ e.plan.points ∧ s.point.id = s.number + 1 ∧ s.point.instr ∈ sites ∧
      ∃ F, s.point.Fits l (after s.point.instr) F := by
  obtain ⟨_, hpoint, _⟩ := hp.prepared.mem hs
  obtain ⟨hid, hsite, hF⟩ := hp.plan.points hpoint
  exact ⟨mem_of_getElem? hpoint, hid, hsite, hF⟩

theorem Planned.call {p : Point} (hpoint : p ∈ e.plan.points) :
    ((p.instr : Nat) : Int) ∈ sites.map Int.ofNat ∧ ∃ n, e.body[p.instr]? = some (.invoke n) := by
  obtain ⟨k, hk⟩ := mem_iff_getElem?.mp hpoint
  obtain ⟨_, hsite, F, hF⟩ := hp.plan.points hk
  obtain ⟨n, hn, _⟩ := hF.call
  rw [hp.code]
  exact ⟨mem_map.mpr ⟨_, hsite, rfl⟩, n, hn⟩

theorem Planned.encloses :
    e.graph.blockNumber 0 ∈ e.plan.segments.flatten ∧
      e.plan.Encloses e.body e.function.handlers e.plan.segments.flatten ∧
      e.plan.Encloses e.body e.function.handlers e.plan.segments.tail.flatten := by
  rw [hp.code]
  exact hp.plan.encloses hp.fits.divides hp.nonempty

/-- The locals of the emitted code are few enough. -/
theorem Planned.placed : e.Placed (· < e.localsBound) where
  fields s hs := by
    obtain ⟨_, _, _, F, hF⟩ := hp.point hs
    exact hF.fields.length_eq
  scratch := by
    rw [UInt32.lt_iff_toNat_lt, hp.toNat_localsBound, hp.roomy.toNat_scratch]
    omega
  home hk := by
    rw [UInt32.lt_iff_toNat_lt, hp.toNat_localsBound, hp.roomy.toNat_home hk]
    omega
  param hn := by
    rw [UInt32.lt_iff_toNat_lt, hp.toNat_localsBound]
    omega
  own hn := by
    rw [UInt32.lt_iff_toNat_lt, hp.toNat_localsBound]
    omega
  spill s hs k hk := by
    have hdeep := depth_le_deepest (hp.point hs).1
    rw [UInt32.lt_iff_toNat_lt, hp.toNat_localsBound, hp.roomy.toNat_spill (by omega)]
    omega
  captured s hs pos hpos := by
    obtain ⟨hpoint, _, _, F, hF⟩ := hp.point hs
    have hlt := (hF.mem_live.mp hpos).2.1
    have hdeep := depth_le_deepest hpoint
    rw [← hp.plan.locals] at hlt
    rw [UInt32.lt_iff_toNat_lt, hp.toNat_localsBound, hp.roomy.toNat_captured (by omega)]
    split <;> omega

theorem Planned.refers_body : ∀ i ∈ e.body, i.RefersTo u (· < e.localsBound) := by
  intro i hi
  rw [hp.code] at hi
  have hrefers := CodeUnit.refers_of_bodyOf hp.checked i hi
  refine Instr.refers_iff.mp (hrefers.mono hp.extended ?_)
  rw [UInt32.le_iff_toNat_le, hp.toNat_localsBound, hp.plan.locals, hp.locals]
  omega

end

/-- **Emitted code passes the checks of a body.** -/
theorem Planned.bodyOf_emitted (hp : e.Planned u l ctx sites after) {floor : UInt32}
    (hfin : frag.finish = .ok (is, hs)) (hsupports : u.Supports (· < e.localsBound) is hs ∧
      ∀ h ∈ hs, ∃ h' ∈ e.function.handlers, h.kind = h'.kind)
    (hcode : f.code = Instr.encodeAll is) (hsize : f.code.length < 2 ^ 32)
    (hhandlers : f.handlers = hs) (hparams : f.params.length < 2 ^ 32)
    (hlocals : f.maxLocals = localsNeeded is f.params.length floor) : u.bodyOf f = .ok is := by
  obtain ⟨_, _, _, _, hwithin⟩ := CodeUnit.bodyOf_eq_ok.mp hp.checked
  obtain ⟨hneeded, hlocalsOk, hslots⟩ := localsNeeded_spec is f.params.length floor
  obtain ⟨_, hhs, hfilter⟩ := finish_eq_ok.mp hfin
  have hlen : is.length < 2 ^ 32 := by
    have := Instr.length_le_encodeAll is
    rw [← hcode] at this
    omega
  refine CodeUnit.bodyOf_eq_ok.mpr ⟨?_, hsupports.1.nonempty, hlocals ▸ hlocalsOk hparams,
    fun i hi => ⟨hsupports.1.targets i hi, ?_⟩, fun h hh => ?_⟩
  · rw [hcode]
    exact Instr.decodeAll_encodeAll (hcode ▸ hsize)
  · refine Instr.refers_iff.mpr ((hsupports.1.refers i hi).weaken fun n hn hlt => ?_)
    rw [hlocals]
    refine hslots n (mem_filterMap.mpr ⟨_, hi, hn⟩) ?_
    have := UInt32.lt_iff_toNat_lt.mp hlt
    have := e.localsBound.toNat_lt
    omega
  · rw [hhandlers] at hh
    have htarget := hsupports.1.handlers h hh
    obtain ⟨h', hh', hkind⟩ := hsupports.2 h hh
    rw [← hfilter, mem_filter, mem_map] at hh
    obtain ⟨⟨g, hg, rfl⟩, hlt⟩ := hh
    exact ⟨of_decide_eq_true hlt, address_le hfin hlen (hhs g hg).2.1, htarget,
      hkind ▸ (hwithin h' hh').kind⟩

/-- The homes of its parameters are among the locals of a continuation. -/
theorem Roomy.room_of_home (hroom : e.Roomy) {js : List Instr} {params : Nat} {count : UInt32}
    (hcount : count = localsNeeded js params (e.home 3 + 1)) :
    e.plan.locals + e.deepest + 5 ≤ count.toNat := by
  have hhome := hroom.toNat_home (Nat.le_refl 3)
  have hle := UInt32.le_iff_toNat_le.mp (localsNeeded_spec js params (e.home 3 + 1)).1
  unfold Roomy at hroom
  rw [← hcount, UInt32.toNat_add, hhome, UInt32.toNat_one, Nat.mod_eq_of_lt (by omega)] at hle
  omega

/-! ## Both functions -/

/-- The function itself can be read back, and holds copies of all blocks that can run. -/
theorem Planned.suspendable_body (hp : e.Planned u l ctx sites after) (h : e.suspendable = .ok frag)
    (hfin : frag.finish = .ok (is, hs)) (hcode : f.code = Instr.encodeAll is)
    (hsize : f.code.length < 2 ^ 32) (hhandlers : f.handlers = hs)
    (hparams : f.params = e.function.params)
    (hlocals : f.maxLocals = localsNeeded is f.params.length e.function.maxLocals) :
    u.bodyOf f = .ok is ∧
      e.Copies e.plan.segments.flatten none is f.handlers (e.offset e.plan.segments.flatten) := by
  have hlen : is.length < 2 ^ 32 := by
    have := Instr.length_le_encodeAll is
    rw [← hcode] at this
    omega
  obtain ⟨_, _, hfew, _⟩ := CodeUnit.bodyOf_eq_ok.mp hp.checked
  have hnumbered := hp.prepared.numbered
  have hsupports := hp.prepared.supplied.supports_suspendable hp.placed hp.divides hnumbered
    hp.refers_body hp.nonempty h hfin
  refine ⟨hp.bodyOf_emitted hfin hsupports hcode hsize hhandlers ?_ hlocals,
    hhandlers ▸ suspendable_code h hp.divides hfin hlen hnumbered⟩
  have := e.function.maxLocals.toNat_lt
  rw [hparams]
  omega

/-- The continuation can be read back, and holds what it begins with and copies of the blocks that
can run after a resumption. -/
theorem Planned.continuation_body (hp : e.Planned u l ctx sites after)
    (h : e.continuation = .ok frag)
    (hfin : frag.finish = .ok (is, hs)) (hcode : f.code = Instr.encodeAll is)
    (hsize : f.code.length < 2 ^ 32) (hhandlers : f.handlers = hs)
    (hparams : f.params.length = 4)
    (hlocals : f.maxLocals = localsNeeded is f.params.length (e.home 3 + 1)) :
    u.bodyOf f = .ok is ∧
      let pos i := (codes e.opening).length + e.offset e.plan.segments.tail.flatten i
      e.Copies e.plan.segments.tail.flatten (some (e.home 0)) is f.handlers pos ∧
        e.Resumes is f.handlers pos := by
  have hlen : is.length < 2 ^ 32 := by
    have := Instr.length_le_encodeAll is
    rw [← hcode] at this
    omega
  have hsupports := hp.prepared.supplied.supports_continuation hp.placed hp.divides
    hp.prepared.numbered hp.refers_body h hfin
  refine ⟨hp.bodyOf_emitted hfin hsupports hcode hsize hhandlers (by omega) hlocals, ?_⟩
  rw [hhandlers]
  exact continuation_code h hp.divides hfin hlen hp.prepared.numbered (fun p hpoint => hp.call hpoint)
    hp.encloses.2.2.behind hp.encloses.2.2.resumed

end Emission

end Resumable
