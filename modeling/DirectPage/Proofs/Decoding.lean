import Mathlib.Logic.ExistsUnique
import DirectPage.Proofs.LegalCode
import DirectPage.Proofs.Stepping

/-! Reading instructions back from their bytes.

A first byte is an opcode of the base page or one of two marks: the one in front of wide operands and the one of the
extended page. From there on each byte says how many more belong to the instruction, so there is one way to read a
sequence of legal instructions. A long branch is read as the two branches that it is made of. -/
namespace DirectPage

section Bytes

/-- What holds of small numbers as bytes holds of small bytes. -/
theorem UInt8.forall_lt {k : Nat} {P : UInt8 → Prop} (h : ∀ n : Fin k, P (UInt8.ofNat n)) {b : UInt8}
    (hb : b.toNat < k) : P b := by
  have := h ⟨b.toNat, hb⟩
  rwa [UInt8.ofNat_toNat] at this

def unpackNibbles (b : UInt8) : UInt8 × UInt8 := (b >>> 4, b &&& 0x0f)

theorem unpackNibbles_packNibbles {hi lo : UInt8} (hhi : hi < 16) (hlo : lo < 16) :
    unpackNibbles (packNibbles hi lo) = (hi, lo) :=
  UInt8.forall_lt (k := 16) (P := fun hi => unpackNibbles (packNibbles hi lo) = (hi, lo)) (fun n =>
    UInt8.forall_lt (k := 16) (P := fun lo => unpackNibbles (packNibbles (UInt8.ofNat n) lo) = (UInt8.ofNat n, lo))
      (by revert n; decide +kernel) hlo) hhi

theorem and_0x0f {b : UInt8} (h : b < 16) : b &&& 0x0f = b :=
  UInt8.forall_lt (k := 16) (P := fun b => b &&& 0x0f = b) (by decide +kernel) h

theorem and_0x3f {b : UInt8} (h : b < 64) : b &&& 0x3f = b :=
  UInt8.forall_lt (k := 64) (P := fun b => b &&& 0x3f = b) (by decide +kernel) h

theorem ShiftOp.and_byte (op : ShiftOp) {count : UInt8} (h : count < 32) :
    (op.byte ||| (count &&& 0x1f)) &&& 0xe0 = op.byte ∧ (op.byte ||| (count &&& 0x1f)) &&& 0x1f = count :=
  UInt8.forall_lt (k := 32) (P := fun count =>
    (op.byte ||| (count &&& 0x1f)) &&& 0xe0 = op.byte ∧ (op.byte ||| (count &&& 0x1f)) &&& 0x1f = count)
    (by cases op <;> decide +kernel) h

theorem ofNat_unsignedOf_base (base : UInt16) :
    UInt16.ofNat (unsignedOf [base.toUInt8, (base >>> 8).toUInt8]) = base := by
  have := base.toNat_lt
  rw [← UInt16.toNat_inj]
  simp [unsignedOf, Nat.shiftRight_eq_div_pow]
  omega

end Bytes

section Lookup

def Opcode.ofByte? (b : UInt8) : Option Opcode := all.find? (·.byte == b)

theorem Opcode.mem_all (op : Opcode) : op ∈ all := by cases op <;> decide +kernel

theorem Opcode.ofByte?_byte (op : Opcode) : ofByte? op.byte = some op :=
  (by decide +kernel : ∀ op ∈ all, ofByte? op.byte = some op) op op.mem_all

theorem Opcode.byte_ne (op : Opcode) : op.byte ≠ widePrefix ∧ op.byte ≠ extendedPrefix :=
  (by decide +kernel : ∀ op ∈ all, op.byte ≠ widePrefix ∧ op.byte ≠ extendedPrefix) op op.mem_all

def BranchCond.ofOpcode? (op : Opcode) : Option BranchCond := all.find? (·.opcode == op)

theorem BranchCond.ofOpcode?_opcode (cond : BranchCond) : ofOpcode? cond.opcode = some cond := by
  cases cond <;> rfl

theorem BranchCond.mode?_opcode (cond : BranchCond) : cond.opcode.mode? = some .branch := by cases cond <;> rfl

theorem BranchCond.taken_invert (cond : BranchCond) (flags : Flags) :
    cond.invert.taken flags = !cond.taken flags := by
  cases cond <;> simp [invert, taken]

inductive Selector
  | register | shifter | extend
  | single (op : ExtOpcode)
  | float (op : FloatOp) (prec : Precision)
  | floatMem (op : FloatMemOp) (prec : Precision)
  | floatMemAbs (op : FloatMemOp) (prec : Precision)
  deriving DecidableEq, Repr

namespace Selector

def byte : Selector → UInt8
  | register => registerGroup
  | shifter => shifterGroup
  | extend => extendGroup
  | single op => op.byte
  | float op prec => op.byte prec
  | floatMem op prec => op.byte prec
  | floatMemAbs op prec => op.absoluteByte prec

def all : List Selector :=
  [register, shifter, extend] ++ ExtOpcode.all.map single ++
    Precision.all.flatMap fun prec => FloatOp.all.map (float · prec) ++
      FloatMemOp.all.map (floatMem · prec) ++ FloatMemOp.all.map (floatMemAbs · prec)

def ofByte? (b : UInt8) : Option Selector := all.find? (·.byte == b)

theorem mem_all (s : Selector) : s ∈ all := by
  cases s with
  | register | shifter | extend => decide +kernel
  | single op => cases op <;> decide +kernel
  | float op prec | floatMem op prec | floatMemAbs op prec => cases op <;> cases prec <;> decide +kernel

theorem ofByte?_byte (s : Selector) : ofByte? s.byte = some s :=
  (by decide +kernel : ∀ s ∈ all, ofByte? s.byte = some s) s s.mem_all

end Selector

def RegAluOp.ofByte? (b : UInt8) : Option RegAluOp := all.find? (·.byte == b)

def RegAluOp.ofImmediateByte? (b : UInt8) : Option RegAluOp := all.find? (·.immediateByte == b)

theorem RegAluOp.ofByte?_byte (op : RegAluOp) : ofByte? op.byte = some op := by cases op <;> rfl

theorem RegAluOp.ofByte?_immediateByte (op : RegAluOp) :
    ofByte? op.immediateByte = none ∧ ofImmediateByte? op.immediateByte = some op := by
  cases op <;> exact ⟨rfl, rfl⟩

def ShiftOp.ofByte? (b : UInt8) : Option ShiftOp := all.find? (·.byte == b)

theorem ShiftOp.ofByte?_byte (op : ShiftOp) : ofByte? op.byte = some op := by cases op <;> rfl

def ExtendOp.ofByte? (b : UInt8) : Option ExtendOp := all.find? (·.byte == b)

theorem ExtendOp.ofByte?_byte (op : ExtendOp) : ofByte? op.byte = some op := by cases op <;> rfl

end Lookup

namespace Instruction

def readBase (op : Opcode) (bytes : List UInt8) : Option (Instruction × List UInt8) :=
  match op.mode?, bytes with
  | some .implied, rest => some (implied op, rest)
  | some .direct, slot :: rest => some (direct op slot, rest)
  | some .absoluteX, lo :: hi :: rest => some (absoluteX op (UInt16.ofNat (unsignedOf [lo, hi])), rest)
  | some .branch, d :: rest =>
    (BranchCond.ofOpcode? op).map fun cond => (branch cond (BitVec.ofInt 32 (signedOf [d])), rest)
  | some .bra, d :: rest => some (bra (BitVec.ofInt 32 (signedOf [d])), rest)
  | some .brl, lo :: hi :: rest => some (brl (BitVec.ofInt 32 (signedOf [lo, hi])), rest)
  | _, _ => none

def readOperand : List UInt8 → Option (Imm × List UInt8)
  | b0 :: b1 :: b2 :: b3 :: rest => some (.value (Word.ofBytes b0 b1 b2 b3), rest)
  | _ => none

def readWide (op : Opcode) (bytes : List UInt8) : Option (Instruction × List UInt8) := do
  let (imm, rest) ← readOperand bytes
  match op.mode? with
  | some .immediate => some (immediate op imm, rest)
  | some .absolute => some (absolute op imm, rest)
  | _ => none

def readExtended (s : Selector) (bytes : List UInt8) : Option (Instruction × List UInt8) :=
  match s, bytes with
  | .register, code :: dst :: rest =>
    match RegAluOp.ofByte? code, rest with
    | some op, src :: rest => some (regAlu op dst src, rest)
    | _, rest => do
      let op ← RegAluOp.ofImmediateByte? code
      let (imm, rest) ← readOperand rest
      return (regAluImm op dst imm, rest)
  | .shifter, code :: dst :: src :: rest =>
    (ShiftOp.ofByte? (code &&& 0xe0)).map fun op => (shift op (code &&& 0x1f) dst src, rest)
  | .extend, code :: dst :: src :: rest => (ExtendOp.ofByte? code).map fun op => (extend op dst src, rest)
  | .single .tta, rest => some (extImplied .tta, rest)
  | .single op, slot :: rest => some (extDirect op slot, rest)
  | .float op prec, regs :: rest =>
    some (float op prec (unpackNibbles regs).1 (unpackNibbles regs).2, rest)
  | .floatMem op prec, regs :: rest =>
    some (floatMem op prec (unpackNibbles regs).1 (unpackNibbles regs).2, rest)
  | .floatMemAbs op prec, freg :: rest => (readOperand rest).map fun (imm, rest) => (floatMemAbs op prec freg imm, rest)
  | _, _ => none

def decode? : List UInt8 → Option (Instruction × List UInt8)
  | [] => none
  | first :: rest =>
    if first = widePrefix then (rest.head?.bind Opcode.ofByte?).bind (readWide · rest.tail)
    else if first = extendedPrefix then (rest.head?.bind Selector.ofByte?).bind (readExtended · rest.tail)
    else (Opcode.ofByte? first).bind (readBase · rest)

section Read

variable (rest : List UInt8)

theorem decode?_base (op : Opcode) : decode? (op.byte :: rest) = readBase op rest := by
  simp only [decode?, if_neg op.byte_ne.1, if_neg op.byte_ne.2, op.ofByte?_byte, Option.bind_some]

theorem decode?_wide (op : Opcode) : decode? (widePrefix :: op.byte :: rest) = readWide op rest := by
  simp only [decode?, if_true, List.head?_cons, List.tail_cons, op.ofByte?_byte, Option.bind_some]

theorem decode?_extended (s : Selector) : decode? (extendedPrefix :: s.byte :: rest) = readExtended s rest := by
  have hne : extendedPrefix ≠ widePrefix := by decide
  simp only [decode?, if_neg hne, if_true, List.head?_cons, List.tail_cons, s.ofByte?_byte, Option.bind_some]

theorem readOperand_encode {imm : Imm} (h : imm.isSymbolic = false) :
    readOperand (imm.encode ++ rest) = some (imm, rest) := by
  cases imm with
  | value k =>
    change some (Imm.value (Word.ofBytes _ _ _ _), rest) = _
    rw [Word.ofBytes_bytes]
  | symbol | label => cases h

/-- The bytes of a branch hold its displacement. -/
theorem ofInt_signedOf_field {i : Instruction} {field : Nat} {kind : FixupKind} {offset : Word}
    (hfield : i.branchField? = some (field, kind)) (hoffset : i.branchOffset? = some offset)
    (h : i.offsetFits = true) : BitVec.ofInt 32 (signedOf ((i.encode.drop field).take kind.width)) = offset := by
  have hsame : i.withBranchOffset (BitVec.ofInt 32 offset.toInt) = i := by
    rw [BitVec.ofInt_toInt]
    cases i <;> cases hoffset <;> rfl
  rw [offsetFits, hfield, hoffset] at h
  have hd := signedOf_field hfield h
  rw [hsame] at hd
  rw [hd, BitVec.ofInt_toInt]

end Read

def isLongBranch : Instruction → Bool
  | branchLong .. => true
  | _ => false

/-- A legal instruction is read back, and nothing behind it. -/
theorem decode?_encode {i : Instruction} (h : i.Legal) (hlong : i.isLongBranch = false) (rest : List UInt8) :
    decode? (i.encode ++ rest) = some (i, rest) := by
  have hdisp := h.isDispatched
  have hfields := h.fields
  cases i with
  | implied op =>
    refine (decode?_base rest op).trans ?_
    simp only [readBase, eq_of_beq hdisp]
  | direct op slot =>
    refine (decode?_base (slot :: rest) op).trans ?_
    simp only [readBase, eq_of_beq hdisp]
  | immediate op value =>
    refine (decode?_wide (value.encode ++ rest) op).trans ?_
    rw [readWide, readOperand_encode rest (h.isSymbolic_eq_false rfl), eq_of_beq hdisp]
    rfl
  | absolute op addr =>
    refine (decode?_wide (addr.encode ++ rest) op).trans ?_
    rw [readWide, readOperand_encode rest (h.isSymbolic_eq_false rfl), eq_of_beq hdisp]
    rfl
  | absoluteX op base =>
    refine (decode?_base (base.toUInt8 :: (base >>> 8).toUInt8 :: rest) op).trans ?_
    simp only [readBase, eq_of_beq hdisp, ofNat_unsignedOf_base]
  | branch cond offset =>
    have hoffset := ofInt_signedOf_field (i := branch cond offset) rfl rfl h.offset
    change BitVec.ofInt 32 (signedOf [UInt8.ofNat offset.toNat]) = offset at hoffset
    refine (decode?_base (UInt8.ofNat offset.toNat :: rest) cond.opcode).trans ?_
    simp only [readBase, cond.mode?_opcode, cond.ofOpcode?_opcode, hoffset, Option.map_some]
  | branchLong => cases hlong
  | bra offset =>
    have hoffset := ofInt_signedOf_field (i := bra offset) rfl rfl h.offset
    change BitVec.ofInt 32 (signedOf [UInt8.ofNat offset.toNat]) = offset at hoffset
    refine (decode?_base (UInt8.ofNat offset.toNat :: rest) .bra).trans ?_
    change some (bra (BitVec.ofInt 32 (signedOf [UInt8.ofNat offset.toNat])), rest) = _
    rw [hoffset]
  | brl offset =>
    have hoffset := ofInt_signedOf_field (i := brl offset) rfl rfl h.offset
    change BitVec.ofInt 32 (signedOf (lowHalf offset)) = offset at hoffset
    refine (decode?_base (lowHalf offset ++ rest) .brl).trans ?_
    change some (brl (BitVec.ofInt 32 (signedOf (lowHalf offset))), rest) = _
    rw [hoffset]
  | regAlu op dst src =>
    refine (decode?_extended (op.byte :: dst :: src :: rest) .register).trans ?_
    simp only [readExtended, op.ofByte?_byte]
  | regAluImm op dst value =>
    refine (decode?_extended (op.immediateByte :: dst :: (value.encode ++ rest)) .register).trans ?_
    simp only [readExtended, op.ofByte?_immediateByte, readOperand_encode rest (h.isSymbolic_eq_false rfl)]
    rfl
  | shift op count dst src =>
    simp only [fieldsFit, Bool.and_eq_true, decide_eq_true_eq] at hfields
    obtain ⟨⟨hcount, hdst⟩, hsrc⟩ := hfields
    refine (decode?_extended ((op.byte ||| (count &&& 0x1f)) :: (dst &&& 0x3f) :: (src &&& 0x3f) :: rest)
      .shifter).trans ?_
    simp only [readExtended, op.and_byte hcount, op.ofByte?_byte, and_0x3f hdst, and_0x3f hsrc, Option.map_some]
  | extend op dst src =>
    simp only [fieldsFit, Bool.and_eq_true, decide_eq_true_eq] at hfields
    refine (decode?_extended (op.byte :: (dst &&& 0x3f) :: (src &&& 0x3f) :: rest) .extend).trans ?_
    simp only [readExtended, op.ofByte?_byte, and_0x3f hfields.1, and_0x3f hfields.2, Option.map_some]
  | extImplied op =>
    cases eq_of_beq hdisp
    exact decode?_extended rest (.single .tta)
  | extDirect op slot =>
    refine (decode?_extended (slot :: rest) (.single op)).trans ?_
    cases op with
    | tta => cases hdisp
    | _ => rfl
  | float op prec dst src =>
    simp only [fieldsFit, Bool.and_eq_true, decide_eq_true_eq] at hfields
    refine (decode?_extended (packNibbles dst src :: rest) (.float op prec)).trans ?_
    simp only [readExtended, unpackNibbles_packNibbles hfields.1 hfields.2]
  | floatMem op prec freg base =>
    simp only [fieldsFit, Bool.and_eq_true, decide_eq_true_eq] at hfields
    refine (decode?_extended (packNibbles freg base :: rest) (.floatMem op prec)).trans ?_
    simp only [readExtended, unpackNibbles_packNibbles hfields.1 hfields.2]
  | floatMemAbs op prec freg addr =>
    simp only [fieldsFit, decide_eq_true_eq] at hfields
    refine (decode?_extended ((freg &&& 0x0f) :: (addr.encode ++ rest)) (.floatMemAbs op prec)).trans ?_
    simp only [readExtended, readOperand_encode rest (h.isSymbolic_eq_false rfl), and_0x0f hfields,
      Option.map_some]

section Unique

variable {i j : Instruction} {is js : List Instruction}

theorem encode_append_inj (hi : i.Legal) (hj : j.Legal) (hli : i.isLongBranch = false) (hlj : j.isLongBranch = false)
    {r s : List UInt8} (h : i.encode ++ r = j.encode ++ s) : i = j ∧ r = s := by
  have hread := congrArg decode? h
  rw [decode?_encode hi hli, decode?_encode hj hlj] at hread
  exact Prod.mk.inj (Option.some.inj hread)

theorem encode_ne_nil (i : Instruction) : i.encode ≠ [] := by cases i <;> exact List.cons_ne_nil _ _

theorem encodeAll_inj (his : ∀ i ∈ is, i.Legal ∧ i.isLongBranch = false)
    (hjs : ∀ j ∈ js, j.Legal ∧ j.isLongBranch = false) (h : encodeAll is = encodeAll js) : is = js := by
  induction is generalizing js with
  | nil =>
    cases js with
    | nil => rfl
    | cons j js => exact absurd (List.append_eq_nil_iff.mp h.symm).1 j.encode_ne_nil
  | cons i is ih =>
    cases js with
    | nil => exact absurd (List.append_eq_nil_iff.mp h).1 i.encode_ne_nil
    | cons j js =>
      obtain ⟨hi, his'⟩ := List.forall_mem_cons.mp his
      obtain ⟨hj, hjs'⟩ := List.forall_mem_cons.mp hjs
      obtain ⟨rfl, hrest⟩ := encode_append_inj hi.1 hj.1 hi.2 hj.2 h
      rw [ih his' hjs' hrest]

/-- The two branches that a long branch is encoded as. All else stands for itself. -/
def spelled : Instruction → List Instruction
  | branchLong cond offset => [branch cond.invert 3#32, brl offset]
  | i => [i]

theorem encodeAll_spelled (i : Instruction) : encodeAll i.spelled = i.encode := by
  cases i with
  | branchLong => rfl
  | _ => exact List.append_nil _

theorem Legal.spelled (h : i.Legal) : ∀ j ∈ i.spelled, j.Legal ∧ j.isLongBranch = false := by
  cases i with
  | branchLong cond offset =>
    have hskip : FixupKind.pcRel8.inRange (3#32 : Word).toInt = true := by decide
    have hbranch : (branch cond.invert 3#32).Legal := legal_iff.mpr ⟨rfl, rfl, hskip, rfl⟩
    have hbrl : (brl offset).Legal := legal_iff.mpr ⟨rfl, rfl, h.offset, rfl⟩
    exact List.forall_mem_cons.mpr ⟨⟨hbranch, rfl⟩, List.forall_mem_singleton.mpr ⟨hbrl, rfl⟩⟩
  | _ => exact List.forall_mem_singleton.mpr ⟨h, rfl⟩

theorem existsUnique_reading (his : ∀ i ∈ is, i.Legal) :
    ∃! js : List Instruction, (∀ j ∈ js, j.Legal ∧ j.isLongBranch = false) ∧ encodeAll js = encodeAll is := by
  have hlegal : ∀ j ∈ is.flatMap spelled, j.Legal ∧ j.isLongBranch = false := by
    intro j hj
    obtain ⟨i, hi, hmem⟩ := List.mem_flatMap.mp hj
    exact (his i hi).spelled j hmem
  have hbytes : encodeAll (is.flatMap spelled) = encodeAll is := by
    rw [encodeAll, List.flatMap_assoc]
    exact congrArg (fun f => is.flatMap f) (funext encodeAll_spelled)
  exact ⟨is.flatMap spelled, ⟨hlegal, hbytes⟩, fun js hjs => encodeAll_inj hjs.1 hlegal (hjs.2.trans hbytes.symm)⟩

end Unique

theorem steps_spelled {m : Machine} {code : AddressMap (Option Instruction) 32} {cond : BranchCond} {offset : Word}
    (hm : m.code.get m.pc.toNat = some (branchLong cond offset))
    (hcode : Machine.HoldsFrom code m.pc (branchLong cond offset).spelled) :
    ∃ n, m.step = .ok n ∧
      { m with code := code }.steps (if cond.taken m.flags then 2 else 1) = .ok { n with code := code } := by
  obtain ⟨hbranch, hbrl, -⟩ := hcode
  have hlong : m.step = .ok (if cond.taken m.flags then { m with pc := m.pc + 5#32 + offset }
      else { m with pc := m.pc + 5#32 }) := Machine.step_of_get hm
  have hfirst : { m with code := code }.step = .ok (if cond.invert.taken m.flags
      then { m with code := code, pc := m.pc + 2#32 + 3#32 } else { m with code := code, pc := m.pc + 2#32 }) :=
    Machine.step_of_get (m := { m with code := code }) hbranch
  have hsecond : { m with code := code, pc := m.pc + 2#32 }.step =
      .ok { m with code := code, pc := m.pc + 2#32 + 3#32 + offset } :=
    Machine.step_of_get (m := { m with code := code, pc := m.pc + 2#32 }) hbrl
  have hsize : m.pc + 2#32 + 3#32 = m.pc + 5#32 := BitVec.add_assoc _ _ _
  refine ⟨_, hlong, ?_⟩
  rw [cond.taken_invert] at hfirst
  -- The first branch skips the second exactly when the long branch is not taken.
  cases htaken : cond.taken m.flags with
  | false =>
    rw [htaken, hsize] at hfirst
    exact (congrArg (· >>= Machine.steps 0) hfirst :)
  | true =>
    rw [htaken] at hfirst
    rw [hsize] at hsecond
    refine (congrArg (· >>= Machine.steps 1) hfirst).trans ?_
    exact (congrArg (· >>= Machine.steps 0) hsecond :)

/-- Legal instructions are told apart by their bytes, whatever follows, so that there is one reading of them. A long
branch is encoded as two branches, which lead to the same address. The number of bytes is the size. -/
theorem encode_uniquely_decodable :
    (∀ i j : Instruction, i.Legal → j.Legal → i.isLongBranch = false → j.isLongBranch = false →
      ∀ r s : List UInt8, i.encode ++ r = j.encode ++ s → i = j ∧ r = s) ∧
    (∀ is : List Instruction, (∀ i ∈ is, i.Legal) → ∃! js : List Instruction,
      (∀ j ∈ js, j.Legal ∧ j.isLongBranch = false) ∧ encodeAll js = encodeAll is) ∧
    (∀ (cond : BranchCond) (offset : Word),
      (branchLong cond offset).encode = (branch cond.invert 3#32).encode ++ (brl offset).encode ∧
      ∀ (m : Machine) (code : AddressMap (Option Instruction) 32),
        m.code.get m.pc.toNat = some (branchLong cond offset) →
        Machine.HoldsFrom code m.pc [branch cond.invert 3#32, brl offset] →
        ∃ n, m.step = .ok n ∧
          { m with code := code }.steps (if cond.taken m.flags then 2 else 1) = .ok { n with code := code }) ∧
    ∀ i : Instruction, i.encode.length = i.size :=
  ⟨fun _ _ hi hj hli hlj _ _ h => encode_append_inj hi hj hli hlj h, fun _ his => existsUnique_reading his,
    fun _ _ => ⟨rfl, fun _ _ hm hcode => steps_spelled hm hcode⟩, encode_length⟩

def mixedCode : List Instruction :=
  [shift .ror 31 63 0, floatMemAbs .store .double 15 (.value 0x12345678#32), regAluImm .cmpr 7 (.value 0xffffffff#32),
    branchLong .vs (BitVec.ofInt 32 (-32768)), extImplied .tta, extDirect .ldW 0x9a, direct .ldaIndY 0x42,
    absoluteX .staAbsX 0xfffe, branch .mi (BitVec.ofInt 32 (-128)), implied .rts]

def longBranchMachine : Machine where
  code := (AddressMap.uniform none).set 0 (some (branchLong .vs (BitVec.ofInt 32 (-32768))))
  flags := { v := true }

def spelledCode : AddressMap (Option Instruction) 32 :=
  ((AddressMap.uniform none).set 0 (some (branch .vc 3#32))).set 2 (some (brl (BitVec.ofInt 32 (-32768))))

theorem encode_uniquely_decodable_mixedCode :
    ((shift .rol 31 63 0).Legal ∧ (shift .ror 0 63 0).Legal ∧
      ∀ r s, (shift .rol 31 63 0).encode ++ r ≠ (shift .ror 0 63 0).encode ++ s) ∧
    ((∀ i ∈ mixedCode, i.Legal) ∧ ∃! js : List Instruction,
      (∀ j ∈ js, j.Legal ∧ j.isLongBranch = false) ∧ encodeAll js = encodeAll mixedCode) ∧
    ∃ n, longBranchMachine.step = .ok n ∧
      { longBranchMachine with code := spelledCode }.steps 2 = .ok { n with code := spelledCode } := by
  obtain ⟨hinj, hread, hlong, -⟩ := encode_uniquely_decodable
  have hrol : (shift .rol 31 63 0).Legal := by decide
  have hror : (shift .ror 0 63 0).Legal := by decide
  have hmixed : ∀ i ∈ mixedCode, i.Legal := by decide
  refine ⟨⟨hrol, hror, fun r s h => ?_⟩, ⟨hmixed, hread _ hmixed⟩, ?_⟩
  · cases (hinj _ _ hrol hror rfl rfl r s h).1
  · exact (hlong .vs (BitVec.ofInt 32 (-32768))).2 longBranchMachine spelledCode (by decide +kernel) (by decide +kernel)

end Instruction

end DirectPage
