import DirectPage.Proofs.CanonicalCompare
import DirectPage.Proofs.Evaluation
import DirectPage.Proofs.Semantics
import DirectPage.Selection.Arithmetic
import DirectPage.Selection.Compare

/-! The operations that selection chooses have the values of the instructions they are chosen for. -/
namespace DirectPage

/-- How far the first element with a property stands in, two ways to say it. -/
private theorem find?_range_getD (p : Nat → Bool) (n : Nat) :
    ((List.range n).find? p).getD n = ((List.range n).takeWhile fun i => !p i).length := by
  have hrange (start : Nat) : ((List.range' start n).find? p).getD (start + n) =
      start + ((List.range' start n).takeWhile fun i => !p i).length := by
    induction n generalizing start with
    | zero => simp
    | succ n ih =>
      rw [List.range'_succ, List.find?_cons, List.takeWhile_cons]
      cases hp : p start with
      | true => simp
      | false =>
        simp only [Bool.not_false, if_true, List.length_cons]
        rw [show start + (n + 1) = start + 1 + n by omega, ih]
        omega
  have h0 := hrange 0
  rw [← List.range_eq_range'] at h0
  simpa using h0

private theorem mulSigned_high (l r : Word) :
    (mulSigned l r).2 = BitVec.ofInt 32 (l.toInt * r.toInt / 4294967296) := by
  have hp : l.signExtend 64 * r.signExtend 64 = BitVec.ofInt 64 (l.toInt * r.toInt) := by
    rw [BitVec.ofInt_mul]
    rfl
  simp only [mulSigned, hp]
  generalize l.toInt * r.toInt = x
  apply BitVec.eq_of_toNat_eq
  simp only [BitVec.toNat_setWidth, BitVec.toNat_ushiftRight, BitVec.toNat_ofInt, Nat.shiftRight_eq_div_pow]
  omega

private theorem mulUnsigned_high (l r : Word) :
    (mulUnsigned l r).2 = BitVec.ofNat 32 (l.toNat * r.toNat / 4294967296) := by
  apply BitVec.eq_of_toNat_eq
  simp only [mulUnsigned, BitVec.toNat_setWidth, BitVec.toNat_ushiftRight, BitVec.toNat_mul, BitVec.toNat_ofNat,
    Nat.shiftRight_eq_div_pow]
  have hl := l.isLt
  have hr := r.isLt
  rw [Nat.mod_eq_of_lt (a := l.toNat) (by omega), Nat.mod_eq_of_lt (a := r.toNat) (by omega)]
  generalize l.toNat * r.toNat = x
  omega

private theorem sdiv_eq (l r : Word) : l.sdiv r = BitVec.ofInt 32 (l.toInt.tdiv r.toInt) := by
  apply BitVec.eq_of_toInt_eq
  rw [BitVec.toInt_sdiv, BitVec.toInt_ofInt]

private theorem srem_eq (l r : Word) : l.srem r = BitVec.ofInt 32 (l.toInt.tmod r.toInt) := by
  rw [← BitVec.toInt_srem, BitVec.ofInt_toInt]

private theorem udiv_eq (l r : Word) : l / r = BitVec.ofNat 32 (l.toNat / r.toNat) := by
  rw [← BitVec.toNat_udiv, BitVec.ofNat_toNat, BitVec.setWidth_eq]

private theorem umod_eq (l r : Word) : l % r = BitVec.ofNat 32 (l.toNat % r.toNat) := by
  rw [← BitVec.toNat_umod, BitVec.ofNat_toNat, BitVec.setWidth_eq]

namespace Selection

variable {op : Ir.BinOp}

theorem aluOp?_eval {alu : AluOp} (h : aluOp? op = some alu) (l r : Word) :
    op.eval l r = some (alu.eval l r) := by
  cases op <;> cases h <;> rfl

theorem shiftKind?_eval {kind : ShiftKind} (h : shiftKind? op = some kind) (l r : Word) :
    op.eval l r = some (kind.eval l (r.toNat % 32)) := by
  cases op <;> cases h <;> rfl

theorem mulDivOp?_eval {mulDiv : MulDivOp} (h : mulDivOp? op = some mulDiv) (l r : Word) :
    op.eval l r = mulDiv.eval l r := by
  cases op <;> cases h <;>
    simp only [Ir.BinOp.eval, MulDivOp.eval, mulSigned_high, mulUnsigned_high, sdiv_eq, srem_eq, udiv_eq, umod_eq]

theorem unaryOp_eval (op : Ir.UnOp) (w : Word) : (unaryOp op).eval w = op.eval w := by
  have hmask (k : Nat) (hk : k ≤ 32) : w &&& BitVec.ofNat 32 (2 ^ k - 1) = (w.setWidth k).setWidth 32 := by
    apply BitVec.eq_of_toNat_eq
    have hpow : 2 ^ k ≤ 2 ^ 32 := Nat.pow_le_pow_right (by omega) hk
    have hmod : w.toNat % 2 ^ k < 2 ^ 32 := Nat.lt_of_le_of_lt (Nat.mod_le _ _) w.isLt
    rw [BitVec.toNat_and, BitVec.toNat_ofNat, Nat.mod_eq_of_lt (a := 2 ^ k - 1) (by omega),
      Nat.and_two_pow_sub_one_eq_mod, BitVec.toNat_setWidth, BitVec.toNat_setWidth, Nat.mod_eq_of_lt hmod]
  cases op with
  | clz => exact congrArg (BitVec.ofNat 32) (find?_range_getD _ 32)
  | ctz => exact congrArg (BitVec.ofNat 32) (find?_range_getD _ 32)
  | zext8 => exact hmask 8 (by omega)
  | zext16 => exact hmask 16 (by omega)
  | _ => rfl

section Compare

variable (regs : Reg → Word)

def Fused.holds : Fused → Bool
  | .constant b => b
  | .compare (.int cc lhs rhs) => cc.holds (regs lhs) (rhs.eval regs)
  | .compare (.float ..) => false

theorem eval_eq_word (rhs : CmpRhs Reg) : rhs.eval regs = rhs.word regs := by
  cases rhs <;> rfl

/-- A compare in canonical form holds when it did before. -/
theorem intCompare_holds (cc : CondCode) (lhs : Reg) (rhs : CmpRhs Reg) :
    (intCompare cc lhs rhs).holds regs = cc.holds (regs lhs) (rhs.eval regs) := by
  rw [eval_eq_word, ← (Canonical.sound_canonicalize cc lhs rhs).holds, intCompare]
  cases canonicalize cc lhs rhs with
  | compare cc' lhs' rhs' =>
    rw [Canonical.holds, ← eval_eq_word]
    rfl
  | constant b => rfl

/-- A compare in canonical form reads no other registers. -/
theorem intCompare_regs {cc : CondCode} {lhs : Reg} {rhs : CmpRhs Reg} {cmp : Compare}
    (h : intCompare cc lhs rhs = .compare cmp) :
    (∃ cc' lhs' rhs', cmp = .int cc' lhs' rhs') ∧ ∀ r ∈ cmp.regs, r ∈ (Compare.int cc lhs rhs).regs := by
  cases rhs with
  | reg r =>
    simp only [intCompare, canonicalize] at h
    split at h
    · cases h
    · next heq =>
      split at heq <;> cases heq <;> cases h
      · exact ⟨⟨_, _, _, rfl⟩, fun _ hr => hr⟩
      · exact ⟨⟨_, _, _, rfl⟩, fun q hq => by simp_all [Compare.regs, or_comm]⟩
  | imm k =>
    simp only [intCompare, canonicalize, Canonical.raised] at h
    split at h
    · cases h
    · next heq =>
      cases h
      refine ⟨⟨_, _, _, rfl⟩, ?_⟩
      split at heq <;> first | (split at heq <;> cases heq <;> simp [Compare.regs]) | (cases heq; simp [Compare.regs])

end Compare

end Selection

end DirectPage
