import Resumable.Instr.Codec
import Resumable.Proofs.Wire.RoundTrip

/-!
# Instructions are read back from their bytes

An instruction is known from its opcode and its operands, and a row of instructions from the bytes
of all of them, as long as the tables of switches can be counted by 32 bits. They can if there are
fewer bytes than that.
-/

namespace Resumable

open List Wire

theorem Opcode.ofCode?_code (op : Opcode) : Opcode.ofCode? op.code = some op := by
  cases op <;> rfl

namespace Instr

/-- The table of a switch can be counted by 32 bits. -/
def Narrow : Instr → Prop
  | switch _ ts _ => ts.length < 2 ^ 32
  | _ => True

theorem reads_operands {i : Instr} (hi : i.Narrow) :
    Reads (readOperands i.opcode) (encode.operands i) i := by
  cases i with
  | iconst v => exact (reads_s64 v).map
  | sconst n | load n | store n | goto n | invoke n | checkcast n => exact (reads_u32 n).map
  | instanceof n | newrec n => exact (reads_u32 n).map
  | branch test n => cases test <;> exact (reads_u32 n).map
  | arith op => cases op <;> exact .pure _
  | recget n f => exact (reads_u32 n).bind (reads_u32 f).map
  | switch low ts d =>
    show Reads _ (s32 low ++ vector u32 ts ++ u32 d) _
    rw [append_assoc]
    refine (reads_s32 low).bind ?_
    exact reads_vector hi (fun t _ => reads_u32 t) (fun t _ => length_u32_pos t)
      (reads_u32 d).map
  | _ => exact .pure _

theorem reads_encode {i : Instr} (hi : i.Narrow) : Reads read i.encode i := by
  show Reads _ ([i.opcode.code] ++ encode.operands i) i
  refine ((reads_byte _).adapt _).bind ?_
  rw [Opcode.ofCode?_code]
  exact (reads_operands hi).adapt _

/-- As many instructions as there are, or more, are read until the bytes end. -/
theorem run_readAll {is : List Instr} (his : ∀ i ∈ is, i.Narrow) {most p : Nat}
    (hmost : is.length ≤ most) :
    ExceptT.run (readAll most) ⟨encodeAll is, p⟩ =
      (.ok is, ⟨[], p + (encodeAll is).length⟩) := by
  induction is generalizing most p with
  | nil => cases most <;> rfl
  | cons i is ih =>
    cases most with
    | zero => simp at hmost
    | succ most =>
      have hread := reads_encode (his i mem_cons_self) (encodeAll is) p
      have hrest := ih (fun j hj => his j (mem_cons_of_mem i hj))
        (Nat.le_of_succ_le_succ hmost) (p := p + i.encode.length)
      have hall : encodeAll (i :: is) = i.encode ++ encodeAll is := flatMap_cons
      unfold readAll
      rw [hall]
      show ExceptT.run (if (i.encode ++ encodeAll is).isEmpty then pure []
        else read >>= fun i => readAll most >>= fun is => pure (i :: is))
          ⟨i.encode ++ encodeAll is, p⟩ = _
      rw [if_neg (by simp [encode]), run_bind_ok hread, run_bind_ok hrest, length_append,
        ← Nat.add_assoc]
      rfl

theorem length_le_encodeAll (is : List Instr) : is.length ≤ (encodeAll is).length := by
  induction is with
  | nil => exact Nat.le_refl 0
  | cons i is ih =>
    unfold encodeAll at *
    rw [flatMap_cons, length_append, length_cons]
    have : 0 < i.encode.length := Nat.succ_pos _
    omega

/-- The bytes of a switch are more than its targets. -/
theorem narrow_of_length {is : List Instr} (h : (encodeAll is).length < 2 ^ 32) :
    ∀ i ∈ is, i.Narrow := by
  intro i hi
  have hle : i.encode.length ≤ (encodeAll is).length := by
    obtain ⟨before, after, rfl⟩ := append_of_mem hi
    unfold encodeAll
    rw [flatMap_append, flatMap_cons, length_append, length_append]
    omega
  cases i with
  | switch low ts d =>
    have hts : ts.length ≤ (ts.flatMap u32).length := length_le_flatMap fun t _ => length_u32_pos t
    have hencode : (ts.flatMap u32).length ≤ (switch low ts d).encode.length := by
      show _ ≤ (_ :: (s32 low ++ (len ts.length ++ ts.flatMap u32) ++ u32 d)).length
      simp only [length_cons, length_append]
      omega
    show ts.length < 2 ^ 32
    omega
  | _ => exact trivial

/-! ## Code that was read -/

section

variable {c c' : Cursor} {i : Instr} {is : List Instr} {code : Bytes}

theorem suffix_of_u32 {v : UInt32} (h : ExceptT.run Reader.u32 c = (.ok v, c')) :
    c'.rest <:+ c.rest := by
  obtain ⟨bs, -, -, ⟨hrest, -⟩, -⟩ := run_u32.mp h
  exact ⟨bs, hrest.symm⟩

theorem run_targets {n : Nat} {ts : List UInt32}
    (h : ExceptT.run (Reader.times Reader.u32 n) c = (.ok ts, c')) :
    ts.length = n ∧ c'.rest <:+ c.rest := by
  induction n generalizing c ts with
  | zero =>
    cases h
    exact ⟨rfl, suffix_rfl⟩
  | succ n ih =>
    obtain ⟨t, c₁, ht, h⟩ := run_bind_eq_ok.mp h
    obtain ⟨ts, hts, rfl⟩ := run_map_eq_ok.mp h
    obtain ⟨rfl, hrest⟩ := ih hts
    exact ⟨rfl, hrest.trans (suffix_of_u32 ht)⟩

/-- What is read under an opcode is an instruction of this opcode. -/
theorem run_readOperands {op : Opcode} (h : ExceptT.run (readOperands op) c = (.ok i, c')) :
    i.opcode = op ∧ i.Narrow ∧ c'.rest <:+ c.rest := by
  cases op with
  | iconst =>
    obtain ⟨v, hv, rfl⟩ := run_map_eq_ok.mp h
    obtain ⟨bs, -, -, ⟨hrest, -⟩, -⟩ := run_s64.mp hv
    exact ⟨rfl, trivial, bs, hrest.symm⟩
  | sconst | load | store | goto | ifzero | ifnonzero | iflt | ifnull | ifnonnull | invoke
  | checkcast | instanceof | newrec =>
    obtain ⟨n, hn, rfl⟩ := run_map_eq_ok.mp h
    exact ⟨rfl, trivial, suffix_of_u32 hn⟩
  | recget =>
    obtain ⟨n, c₁, hn, h⟩ := run_bind_eq_ok.mp h
    obtain ⟨f, hf, rfl⟩ := run_map_eq_ok.mp h
    exact ⟨rfl, trivial, (suffix_of_u32 hf).trans (suffix_of_u32 hn)⟩
  | switch =>
    obtain ⟨low, c₁, hlow, h⟩ := run_bind_eq_ok.mp h
    obtain ⟨n, c₂, hn, h⟩ := run_bind_eq_ok.mp h
    obtain ⟨ts, c₃, hts, h⟩ := run_bind_eq_ok.mp h
    obtain ⟨d, hd, rfl⟩ := run_map_eq_ok.mp h
    obtain ⟨bs, -, -, ⟨hrest, -⟩, -⟩ := run_s32.mp hlow
    obtain ⟨v, c₄, hv, hn⟩ := run_bind_eq_ok.mp hn
    rw [run_get_bind] at hn
    split at hn <;> cases hn
    obtain ⟨hlen, hrest'⟩ := run_targets hts
    refine ⟨rfl, hlen.trans_lt v.toNat_lt, ?_⟩
    exact (suffix_of_u32 hd).trans (hrest'.trans ((suffix_of_u32 hv).trans ⟨bs, hrest.symm⟩))
  | _ =>
    cases h
    exact ⟨rfl, trivial, suffix_rfl⟩

/-- Is an instruction a call? -/
def isCall : Instr → Bool
  | invoke _ => true
  | _ => false

/-- The operands of a call take a byte. -/
theorem length_le_of_readOperands {op : Opcode} (h : ExceptT.run (readOperands op) c = (.ok i, c')) :
    c'.rest.length + (if i.isCall then 1 else 0) ≤ c.rest.length := by
  obtain ⟨rfl, -, hrest⟩ := run_readOperands h
  cases i with
  | invoke n =>
    obtain ⟨n, hn, -⟩ := run_map_eq_ok.mp h
    have hle := length_u32_le hn (UInt32.le_refl n)
    have hpos := length_u32_pos n
    show c'.rest.length + 1 ≤ c.rest.length
    omega
  | _ => exact hrest.length_le

/-- Somewhere in the code there is the opcode of an instruction, and the bytes behind it are read as
the operands of this opcode. -/
def StandsIn (i : Instr) (code : Bytes) : Prop :=
  ∃ c c', i.opcode.code :: c.rest <:+ code ∧ ExceptT.run (readOperands i.opcode) c = (.ok i, c')

theorem run_read (h : ExceptT.run read c = (.ok i, c')) :
    i.StandsIn c.rest ∧ i.Narrow ∧ c'.rest <:+ c.rest ∧
      c'.rest.length + 1 + (if i.isCall then 1 else 0) ≤ c.rest.length := by
  obtain ⟨b, c₁, hb, h⟩ := run_bind_eq_ok.mp h
  obtain ⟨_ | ⟨b, rest⟩, p⟩ := c <;> cases run_adapt_ok.mp hb
  split at h
  next op hop =>
    have hop' := run_adapt_ok.mp h
    have hlen : c'.rest.length + (if i.isCall then 1 else 0) ≤ rest.length :=
      length_le_of_readOperands hop'
    obtain ⟨rfl, hnarrow, hrest⟩ := run_readOperands hop'
    have hcode : i.opcode.code = b := by simpa using find?_some hop
    refine ⟨⟨_, _, ?_, hop'⟩, hnarrow, hrest.trans (suffix_cons b rest), ?_⟩
    · exact hcode ▸ suffix_rfl
    · rw [length_cons]
      omega
  next => cases h

theorem run_readAll_eq_ok {most : Nat} (h : ExceptT.run (readAll most) c = (.ok is, c')) :
    is.length + is.countP isCall ≤ c.rest.length ∧ ∀ i ∈ is, i.StandsIn c.rest ∧ i.Narrow := by
  induction most generalizing c is with
  | zero =>
    cases h
    exact ⟨Nat.zero_le _, by simp⟩
  | succ most ih =>
    change ExceptT.run (if c.rest.isEmpty then pure []
      else read >>= fun i => readAll most >>= fun is => pure (i :: is)) c = _ at h
    split at h
    next =>
      cases h
      exact ⟨Nat.zero_le _, by simp⟩
    next =>
      obtain ⟨i, c₁, hi, h⟩ := run_bind_eq_ok.mp h
      obtain ⟨is, his, rfl⟩ := run_map_eq_ok.mp h
      obtain ⟨hstands, hnarrow, hrest, hfirst⟩ := run_read hi
      obtain ⟨hlater, hall⟩ := ih his
      refine ⟨?_, forall_mem_cons.mpr ⟨⟨hstands, hnarrow⟩, fun j hj => ?_⟩⟩
      · rw [length_cons, countP_cons]
        omega
      obtain ⟨⟨c₂, c₃, hsuffix, hread⟩, hnarrow⟩ := hall j hj
      exact ⟨⟨c₂, c₃, hsuffix.trans hrest, hread⟩, hnarrow⟩

theorem run_of_decodeAll (h : decodeAll code = .ok is) :
    is.length + is.countP isCall ≤ code.length ∧ ∀ i ∈ is, i.StandsIn code ∧ i.Narrow :=
  run_readAll_eq_ok (c := ⟨code, 0⟩) (Prod.ext h rfl)

/-- Code has no more instructions than bytes. -/
theorem length_le_of_decodeAll (h : decodeAll code = .ok is) : is.length ≤ code.length :=
  Nat.le_of_add_right_le (run_of_decodeAll h).1

end

theorem decodeAll_of_narrow {is : List Instr} (h : ∀ i ∈ is, i.Narrow) :
    decodeAll (encodeAll is) = .ok is := by
  unfold decodeAll Reader.run
  rw [run_readAll h (length_le_encodeAll is)]

/-- **Code is read back from its bytes.** -/
theorem decodeAll_encodeAll {is : List Instr} (h : (encodeAll is).length < 2 ^ 32) :
    decodeAll (encodeAll is) = .ok is :=
  decodeAll_of_narrow (narrow_of_length h)

/-- **Reading and writing code are inverse.** Instructions are read back from their bytes as long as
32 bits count the tables of their switches. Whatever bytes code was read from, its instructions
stand in them with the operands of their opcodes, and are read back from the bytes that they are
written in. -/
theorem decodeAll_inverse :
    (∀ is : List Instr, (∀ i ∈ is, i.Narrow) → decodeAll (encodeAll is) = .ok is) ∧
    ∀ code is, decodeAll code = .ok is →
      (∀ i ∈ is, i.StandsIn code ∧ i.Narrow) ∧ decodeAll (encodeAll is) = .ok is := by
  refine ⟨fun is => decodeAll_of_narrow, fun code is h => ?_⟩
  have hall := (run_of_decodeAll h).2
  exact ⟨hall, decodeAll_of_narrow fun i hi => (hall i hi).2⟩

/-- A switch with a target whose index takes more bytes than it needs. -/
theorem decodeAll_inverse_long_index :
    decodeAll [0x36, 0x00, 0x01, 0x82, 0x00, 0x03] = .ok [switch 0 [2] 3] ∧
      decodeAll (encodeAll [switch 0 [2] 3]) = .ok [switch 0 [2] 3] :=
  ⟨rfl, (decodeAll_inverse.2 [0x36, 0x00, 0x01, 0x82, 0x00, 0x03] [switch 0 [2] 3] rfl).2⟩

end Instr

end Resumable
