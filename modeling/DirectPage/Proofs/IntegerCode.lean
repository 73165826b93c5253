import DirectPage.Proofs.OperationCode
import DirectPage.Proofs.OperationValues
import DirectPage.Proofs.Stepping
import DirectPage.Simulator.Run

/-! Integer operations compute what they stand for, whichever of their registers coincide.

The value is said in the words of the operations on values. Beside the slot of the result only the accumulator, `T`
and the flags change. -/
namespace DirectPage

section Values

def AluOp.binOp : AluOp → Ir.BinOp
  | add => .add
  | sub => .sub
  | and => .and
  | or => .or
  | xor => .xor

def MulDivOp.binOp : MulDivOp → Ir.BinOp
  | mul => .mul
  | mulHs => .mulHs
  | mulHu => .mulHu
  | sdiv => .sdiv
  | udiv => .udiv
  | srem => .srem
  | urem => .urem

def ShiftKind.binOp : ShiftKind → Ir.BinOp
  | shl => .shl
  | lshr => .lshr
  | ashr => .ashr
  | rotl => .rotl
  | rotr => .rotr

def UnaryOp.unOp : UnaryOp → Ir.UnOp
  | neg => .neg
  | not => .not
  | sext8 => .sext8
  | sext16 => .sext16
  | zext8 => .zext8
  | zext16 => .zext16
  | clz => .clz
  | ctz => .ctz
  | popcnt => .popcnt

def MulDivOp.divides : MulDivOp → Bool
  | sdiv | udiv | srem | urem => true
  | mul | mulHs | mulHu => false

def ShiftAmount.count (regs : Reg → Word) : ShiftAmount → Word
  | imm n => BitVec.ofNat 32 n.toNat
  | reg r => regs r

namespace Pseudo

def isInteger : Pseudo → Bool
  | loadImm .. | copy .. | alu .. | aluImm .. | mulDiv .. | shift .. | unary .. => true
  | _ => false

def value? (regs : Reg → Word) : Pseudo → Option Word
  | loadImm _ value => some value
  | copy _ src => some (regs src)
  | alu op _ lhs rhs => op.binOp.eval (regs lhs) (regs rhs)
  | aluImm op _ lhs imm => op.binOp.eval (regs lhs) imm
  | mulDiv op _ lhs rhs => op.binOp.eval (regs lhs) (regs rhs)
  | shift kind _ src amount => kind.binOp.eval (regs src) (amount.count regs)
  | unary op _ src => some (op.unOp.eval (regs src))
  | _ => none

def dividesByZero (regs : Reg → Word) : Pseudo → Bool
  | mulDiv op _ _ rhs => op.divides && regs rhs == 0#32
  | _ => false

variable {regs : Reg → Word} {op : Pseudo}

theorem value?_eq_result (hop : op.isInteger = true) (objects : Nat → Word) :
    op.value? regs = op.result ⟨regs, objects⟩ := by
  cases op with
  | loadImm | copy => rfl
  | alu op dst lhs rhs => exact Selection.aluOp?_eval (by cases op <;> rfl) _ _
  | aluImm op dst lhs imm => exact Selection.aluOp?_eval (by cases op <;> rfl) _ _
  | mulDiv op dst lhs rhs => exact Selection.mulDivOp?_eval (by cases op <;> rfl) _ _
  | shift kind dst src amount =>
    have hcount : (amount.count regs).toNat % 32 = amount.eval regs := by
      cases amount with
      | reg r => rfl
      | imm n =>
        have := n.toNat_lt
        rw [ShiftAmount.count, ShiftAmount.eval, BitVec.toNat_ofNat]
        omega
    have hkind : Selection.shiftKind? kind.binOp = some kind := by cases kind <;> rfl
    rw [value?, Selection.shiftKind?_eval hkind, hcount]
    rfl
  | unary op dst src =>
    have hop : Selection.unaryOp op.unOp = op := by cases op <;> rfl
    rw [value?, ← Selection.unaryOp_eval, hop]
    rfl
  | _ => cases hop

theorem value?_eq_none (hop : op.isInteger = true) : op.value? regs = none ↔ op.dividesByZero regs = true := by
  cases op with
  | mulDiv op dst lhs rhs => cases op <;> simp [value?, MulDivOp.binOp, Ir.BinOp.eval, dividesByZero, MulDivOp.divides]
  | alu op | aluImm op | shift op =>
    cases op <;> simp [value?, AluOp.binOp, ShiftKind.binOp, Ir.BinOp.eval, dividesByZero]
  | loadImm | copy | unary => simp [value?, dividesByZero]
  | _ => cases hop

end Pseudo

end Values

namespace Machine

structure Confined (a : Nat) (m m' : Machine) : Prop where
  sp : m'.sp = m.sp
  x : m'.x = m.x
  y : m'.y = m.y
  floats : m'.floats = m.floats
  bytes : ∀ b < memorySize, b < a ∨ a + 4 ≤ b → m'.memory.get b = m.memory.get b

theorem Yields.confined {m m' : Machine} {a : Nat} {w : Word} (h : m.Yields a w m') : m.Confined a m' := by
  have hbytes := h.bytes
  obtain ⟨acc, t, flags, mem, rfl⟩ := h.rest
  exact ⟨rfl, rfl, rfl, rfl, hbytes⟩

end Machine

namespace Expansion

open Machine

/-- The code of an integer operation is the same everywhere. -/
theorem code_implements {op : Pseudo} (hop : op.isInteger = true) (hregs : ∀ r ∈ op.regs, ∃ n < 64, r = .general n) :
    ∃ n < 64, op.dst? = some (.general n) ∧ ∃ c, (∀ s frame, code s frame op = c) ∧
      Implements c n fun m => op.value? m.regs := by
  have hresult (m : Machine) : op.value? m.regs = op.result ⟨m.regs, fun _ => 0#32⟩ := Pseudo.value?_eq_result hop _
  simp only [hresult]
  cases op with
  | loadImm dst value =>
    obtain ⟨d, hd, rfl⟩ := hregs dst (by simp [Pseudo.regs])
    exact ⟨d, hd, rfl, _, fun _ _ => rfl, loadImm_implements hd value⟩
  | copy dst src =>
    obtain ⟨d, hd, rfl⟩ := hregs dst (by simp [Pseudo.regs])
    obtain ⟨l, hl, rfl⟩ := hregs src (by simp [Pseudo.regs])
    exact ⟨d, hd, rfl, _, fun _ _ => rfl, copy_implements hd hl⟩
  | alu op dst lhs rhs =>
    obtain ⟨d, hd, rfl⟩ := hregs dst (by simp [Pseudo.regs])
    obtain ⟨l, hl, rfl⟩ := hregs lhs (by simp [Pseudo.regs])
    obtain ⟨r, hr, rfl⟩ := hregs rhs (by simp [Pseudo.regs])
    exact ⟨d, hd, rfl, _, fun _ _ => rfl, alu_implements op hd hl hr⟩
  | aluImm op dst lhs imm =>
    obtain ⟨d, hd, rfl⟩ := hregs dst (by simp [Pseudo.regs])
    obtain ⟨l, hl, rfl⟩ := hregs lhs (by simp [Pseudo.regs])
    exact ⟨d, hd, rfl, _, fun _ _ => rfl, aluImm_implements op hd hl imm⟩
  | mulDiv op dst lhs rhs =>
    obtain ⟨d, hd, rfl⟩ := hregs dst (by simp [Pseudo.regs])
    obtain ⟨l, hl, rfl⟩ := hregs lhs (by simp [Pseudo.regs])
    obtain ⟨r, hr, rfl⟩ := hregs rhs (by simp [Pseudo.regs])
    exact ⟨d, hd, rfl, _, fun _ _ => rfl, mulDiv_implements op hd hl hr⟩
  | shift kind dst src amount =>
    obtain ⟨d, hd, rfl⟩ := hregs dst (by simp [Pseudo.regs])
    obtain ⟨l, hl, rfl⟩ := hregs src (by simp [Pseudo.regs])
    have hamount : ∀ r ∈ amount.regs, ∃ a < 64, r = .general a := fun r hr => hregs r (by simp [Pseudo.regs, hr])
    exact ⟨d, hd, rfl, _, fun _ _ => rfl, shift_implements kind hd hl hamount⟩
  | unary op dst src =>
    obtain ⟨d, hd, rfl⟩ := hregs dst (by simp [Pseudo.regs])
    obtain ⟨l, hl, rfl⟩ := hregs src (by simp [Pseudo.regs])
    exact ⟨d, hd, rfl, _, fun _ _ => rfl, unary_implements op hd hl⟩
  | _ => cases hop

theorem expandInst_of_isInteger {op : Pseudo} (hop : op.isInteger = true) (frame : Frame) (folding : Bool) (b : Nat)
    (s : Stream) : expandInst frame folding b s op = do return s.emitAll (← code s frame op) := by
  cases op <;> first | rfl | cases hop

/-- An integer operation on general registers is expanded to the same instructions everywhere. Stepping through them
leaves its value in the register of the result and changes nothing else but the accumulator, `T` and the flags; they
fault if the operation divides by zero, and only then. -/
theorem expandInst_computes {op : Pseudo} (hop : op.isInteger = true)
    (hregs : ∀ r ∈ op.regs, ∃ n < 64, r = .general n) :
    ∃ n is, op.dst? = some (.general n) ∧
      (∀ frame folding b s, expandInst frame folding b s op = .ok (s.emitAll is)) ∧
      ∀ m : Machine, m.Holds is →
        (op.dividesByZero m.regs = true → m.steps is.length = fault .divisionByZero) ∧
        (op.dividesByZero m.regs = false → ∃ w m', op.value? m.regs = some w ∧ m.steps is.length = .ok m' ∧
          m'.gpr n = w ∧ m.Confined (4 * n.toNat) m') := by
  obtain ⟨n, hn, hdst, c, hcode, is, rfl, hdoes⟩ := code_implements hop hregs
  dsimp only at hdoes
  refine ⟨n, is, hdst, fun frame folding b s => ?_, fun m hm => ⟨fun hzero => ?_, fun hzero => ?_⟩⟩
  · rw [expandInst_of_isInteger hop, hcode]
    rfl
  · have hrun := hdoes m
    rw [(Pseudo.value?_eq_none hop).mpr hzero] at hrun
    rw [steps_eq hm (by rw [hrun]; nofun), hrun]
    rfl
  · cases hvalue : op.value? m.regs with
    | none => rw [(Pseudo.value?_eq_none hop).mp hvalue] at hzero; cases hzero
    | some w =>
      have hrun := hdoes m
      rw [hvalue] at hrun
      obtain ⟨m', hrun, hyields⟩ := hrun
      have hconf := hyields.confined
      refine ⟨w, _, rfl, steps_ok hm hrun, ?_, hconf.sp, hconf.x, hconf.y, hconf.floats, hconf.bytes⟩
      rw [gpr_eq]
      exact hyields.value

def remainderMachine : Machine where
  memory := (Memory.setWord (.uniform 0) 0 (-7#32)).setWord 4 2#32
  code := placeCode (.uniform none) 0 [lda 0, .extDirect .div 4, .extImplied .tta, sta 4]

theorem expandInst_computes_remainder :
    (Pseudo.mulDiv .srem (.general 1) (.general 0) (.general 1)).isInteger = true ∧
    (∀ r ∈ (Pseudo.mulDiv .srem (.general 1) (.general 0) (.general 1)).regs, ∃ n < 64, r = .general n) ∧
    remainderMachine.Holds [lda 0, .extDirect .div 4, .extImplied .tta, sta 4] ∧
    ∃ m', remainderMachine.steps 4 = .ok m' ∧ m'.gpr 1 = -1#32 ∧ remainderMachine.Confined 4 m' := by
  have hregs : ∀ r ∈ (Pseudo.mulDiv .srem (.general 1) (.general 0) (.general 1)).regs, ∃ n < 64, r = .general n := by
    rintro r (_ | ⟨_, _ | ⟨_, _ | ⟨_, ⟨⟩⟩⟩⟩)
    · exact ⟨1, by decide, rfl⟩
    · exact ⟨0, by decide, rfl⟩
    · exact ⟨1, by decide, rfl⟩
  have hholds : remainderMachine.Holds [lda 0, .extDirect .div 4, .extImplied .tta, sta 4] := by decide +kernel
  obtain ⟨n, is, hdst, hexpand, hruns⟩ := expandInst_computes rfl hregs
  cases hdst
  obtain rfl : is = [lda 0, .extDirect .div 4, .extImplied .tta, sta 4] := by
    have h := Except.ok.inj (hexpand (Frame.mk [] 0 0 false true []) true 0 (.empty "" 0 []))
    simpa [Stream.emitAll] using (congrArg (·.instructions.toList) h).symm
  obtain ⟨w, m', hw, hsteps, hgpr, hconfined⟩ := (hruns remainderMachine hholds).2 (by decide +kernel)
  have hvalue : (Pseudo.mulDiv .srem (.general 1) (.general 0) (.general 1)).value? remainderMachine.regs =
      some (-1#32) := by decide +kernel
  exact ⟨rfl, hregs, hholds, m', hsteps, by rw [hgpr, ← Option.some.inj (hw.symm.trans hvalue)], hconfined⟩

end Expansion

end DirectPage
