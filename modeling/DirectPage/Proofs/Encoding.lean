import Mathlib.Algebra.Group.Nat.Defs
import DirectPage.Stream.Resolve

/-! Where the bytes of an instruction lie, and what the bytes of its fields stand for. -/
namespace DirectPage

def unsignedOf : List UInt8 → Nat
  | [] => 0
  | b :: rest => b.toNat + 256 * unsignedOf rest

def signedOf (bytes : List UInt8) : Int := Int.bmod (unsignedOf bytes) (256 ^ bytes.length)

def startOf (is : List Instruction) (i : Nat) : Nat := (encodeAll (is.take i)).length

namespace Instruction

@[simp] theorem encode_length (i : Instruction) : i.encode.length = i.size := by
  have himm (imm : Imm) : imm.encode.length = 4 := by cases imm <;> rfl
  cases i <;> simp [encode, size, lowHalf, himm]

@[simp] theorem size_withBranchOffset (i : Instruction) (offset : Word) :
    (i.withBranchOffset offset).size = i.size := by
  cases i <;> rfl

@[simp] theorem size_mapOperand (i : Instruction) (f : Imm → Imm) : (i.mapOperand f).size = i.size := by
  cases i <;> rfl

@[simp] theorem branchField?_withBranchOffset (i : Instruction) (offset : Word) :
    (i.withBranchOffset offset).branchField? = i.branchField? := by
  cases i <;> rfl

variable {field : Nat} {kind : FixupKind} {i : Instruction}

theorem operand?_of_branchField? (h : i.branchField? = some (field, kind)) : i.operand? = none := by
  cases i <;> first | rfl | cases h

theorem isPcRelative_of_branchField? (h : i.branchField? = some (field, kind)) : kind.isPcRelative = true := by
  cases i <;> cases h <;> rfl

/-- The field of a branch lies within its bytes. -/
theorem branchField?_le (h : i.branchField? = some (field, kind)) : field + kind.width ≤ i.size := by
  cases i <;> cases h <;> simp [FixupKind.width, size]

/-- The operand lies within the bytes. -/
theorem operandOffset?_le (h : i.operandOffset? = some field) : field + 4 ≤ i.size := by
  cases i <;> cases h <;> simp [size]

/-- The bytes of an operand that waits for its address are zero. -/
theorem encode_symbolic {imm : Imm} (hf : i.operandOffset? = some field) (ho : i.operand? = some imm)
    (hs : imm.isSymbolic = true) : (i.encode.drop field).take 4 = [0, 0, 0, 0] := by
  have himm : imm.encode = [0, 0, 0, 0] := by
    cases imm with
    | value k => cases hs
    | symbol | label => rfl
  cases i <;> cases hf <;> cases ho <;> simp [encode, himm]

end Instruction

private theorem unsignedOf_lowHalf (w : Word) : unsignedOf (lowHalf w) = w.toNat % 65536 := by
  simp only [lowHalf, unsignedOf, UInt8.toNat_ofNat']
  omega

private theorem toNat_ofInt (d : Int) : (BitVec.ofInt 32 d).toNat = (d % 4294967296).toNat := by
  simp [BitVec.toNat_ofInt]

variable {d : Int} {kind : FixupKind}

theorem FixupKind.inRange_pcRel8 : pcRel8.inRange d = true ↔ -128 ≤ d ∧ d < 128 := by
  simp [inRange, width, isPcRelative, Nat.shiftLeft_eq]

theorem FixupKind.inRange_pcRel16 : pcRel16.inRange d = true ↔ -32768 ≤ d ∧ d < 32768 := by
  simp [inRange, width, isPcRelative, Nat.shiftLeft_eq]

/-- A displacement that is in range is what the bytes of its field stand for: nothing is cut off. -/
theorem Instruction.signedOf_field {i : Instruction} {field : Nat} (hf : i.branchField? = some (field, kind))
    (hr : kind.inRange d = true) :
    signedOf ((((i.withBranchOffset (BitVec.ofInt 32 d)).encode).drop field).take kind.width) = d := by
  have hbyte (hd : -128 ≤ d ∧ d < 128) :
      signedOf [UInt8.ofNat (BitVec.ofInt 32 d).toNat] = d := by
    simp only [signedOf, unsignedOf, UInt8.toNat_ofNat', toNat_ofInt, List.length_cons, List.length_nil,
      Int.bmod_def]
    omega
  have hhalf (hd : -32768 ≤ d ∧ d < 32768) : signedOf (lowHalf (BitVec.ofInt 32 d)) = d := by
    rw [signedOf, unsignedOf_lowHalf, toNat_ofInt]
    simp only [lowHalf, List.length_cons, List.length_nil, Int.bmod_def]
    omega
  cases i with
  | branch | bra => cases hf; exact hbyte (FixupKind.inRange_pcRel8.mp hr)
  | branchLong | brl => cases hf; exact hhalf (FixupKind.inRange_pcRel16.mp hr)
  | _ => cases hf

/-- A displacement that is in range is also the signed value of the word that holds it. -/
theorem FixupKind.toInt_of_inRange (hk : kind.isPcRelative = true) (hr : kind.inRange d = true) :
    (BitVec.ofInt 32 d).toInt = d := by
  have hd : -32768 ≤ d ∧ d < 32768 := by
    cases kind with
    | pcRel8 => have := inRange_pcRel8.mp hr; omega
    | pcRel16 => exact inRange_pcRel16.mp hr
    | _ => cases hk
  rw [BitVec.toInt_ofInt, Int.bmod_def]
  omega

section Start

variable {is : List Instruction} {i : Nat} {instr : Instruction}

@[simp] theorem startOf_zero (is : List Instruction) : startOf is 0 = 0 := by simp [startOf, encodeAll]

theorem startOf_cons_succ (instr : Instruction) (is : List Instruction) (i : Nat) :
    startOf (instr :: is) (i + 1) = instr.size + startOf is i := by
  simp [startOf, encodeAll]

theorem startOf_length (is : List Instruction) : startOf is is.length = (encodeAll is).length := by
  simp [startOf]

theorem startOf_succ (h : is[i]? = some instr) : startOf is (i + 1) = startOf is i + instr.size := by
  simp [startOf, encodeAll, List.take_add_one, h]

/-- Sizes determine where instructions start. -/
theorem startOf_congr {is' : List Instruction} (h : is.map Instruction.size = is'.map Instruction.size)
    (i : Nat) : startOf is i = startOf is' i := by
  have hsum (js : List Instruction) : startOf js i = ((js.map Instruction.size).take i).sum := by
    simp [startOf, encodeAll, List.length_flatMap, List.map_take]
  rw [hsum, hsum, h]

theorem encodeAll_split (h : is[i]? = some instr) (rest : List UInt8) : ∃ more,
    (encodeAll is ++ rest).drop (startOf is i) = instr.encode ++ more := by
  induction is generalizing i with
  | nil => simp at h
  | cons j is ih =>
    cases i with
    | zero =>
      obtain rfl : j = instr := by simpa using h
      exact ⟨encodeAll is ++ rest, by simp [encodeAll]⟩
    | succ i =>
      obtain ⟨more, hm⟩ := ih (i := i) (by simpa using h)
      refine ⟨more, ?_⟩
      rw [startOf_cons_succ, ← hm, ← List.drop_drop, encodeAll, List.flatMap_cons, List.append_assoc,
        List.drop_left' (by simp)]
      rfl

theorem encodeAll_field (h : is[i]? = some instr) (rest : List UInt8) {field width : Nat}
    (hw : field + width ≤ instr.size) :
    ((encodeAll is ++ rest).drop (startOf is i + field)).take width =
      (instr.encode.drop field).take width := by
  obtain ⟨more, hm⟩ := encodeAll_split h rest
  rw [← List.drop_drop, hm, List.drop_append_of_le_length (by simp; omega),
    List.take_append_of_le_length (by simp; omega)]

theorem offsetsFrom_getElem? (start : Nat) (is : List Instruction) {i : Nat} :
    (offsetsFrom start is)[i]? = if i ≤ is.length then some (start + startOf is i) else none := by
  induction is generalizing start i with
  | nil => cases i <;> simp [offsetsFrom]
  | cons instr is ih =>
    cases i with
    | zero => simp [offsetsFrom]
    | succ i =>
      rw [offsetsFrom, List.getElem?_cons_succ, ih, startOf_cons_succ]
      simp [Nat.add_assoc]

end Start

end DirectPage
