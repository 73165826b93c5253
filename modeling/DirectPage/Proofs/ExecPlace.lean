import DirectPage.Proofs.Checked
import DirectPage.Proofs.Memory
import DirectPage.Simulator.Step

/-! What an instruction does depends neither on where it stands nor on the code around it, unless it moves control.
Only conditional branches look at the zero and negative flags. -/
namespace DirectPage

inductive Flow
  | call (target : Imm)
  | callVia (slot : UInt8)
  | ret
  | trap
  | away
  | next

def Instruction.flow : Instruction → Flow
  | absolute .jsr target => .call target
  | direct .jsrInd slot => .callVia slot
  | implied .rts => .ret
  | implied .brk => .trap
  | absolute .jmp _ | branch .. | branchLong .. | bra _ | brl _ => .away
  | _ => .next

namespace Machine

def placed (m : Machine) (pc : Word) (code : AddressMap (Option Instruction) 32) : Machine :=
  { m with pc := pc, code := code }

def forget (m : Machine) : Machine := { m with flags.z := false, flags.n := false }

def Alike (x y : Checked Machine) : Prop := forget <$> x = forget <$> y

section Fields

variable (m : Machine) (pc : Word) (code : AddressMap (Option Instruction) 32)

@[simp] theorem placed_sp : (m.placed pc code).sp = m.sp := rfl

@[simp] theorem operand_placed (imm : Imm) : (m.placed pc code).operand imm = m.operand imm := by
  cases imm <;> rfl

@[simp] theorem operand_forget (imm : Imm) : m.forget.operand imm = m.operand imm := by
  cases imm <;> rfl

end Fields

/-- The outcome `y` is `x` at an address of some code, the outcome `z` is `x` but for the zero and negative flag, and
symbols are as given. -/
structure Mirrors (pc : Word) (code : AddressMap (Option Instruction) 32) (symbols : List (String × Word))
    (x y z : Checked Machine) : Prop where
  eq : y = (·.placed pc code) <$> x
  symbols : Machine.symbols <$> x = (fun _ => symbols) <$> x
  alike : Alike z x

def Blind (pc : Word) (code : AddressMap (Option Instruction) 32) (m : Machine)
    (act : Machine → Checked Machine) : Prop :=
  Mirrors pc code m.symbols (act m) (act (m.placed pc code)) (act m.forget)

namespace Blind

variable {α : Type} {pc : Word} {code : AddressMap (Option Instruction) 32} {m : Machine}

/-- With something that depends neither on the place nor on those flags. -/
private theorem given {p : Machine → α} {f : α → Machine → Checked Machine}
    (hp : p (m.placed pc code) = p m ∧ p m.forget = p m) (h : Blind pc code m (f (p m))) :
    Blind pc code m fun m => f (p m) m := by
  simpa only [Blind, hp] using h

private theorem read {x : Machine → Checked α} {f : α → Machine → Checked Machine}
    (hx : x (m.placed pc code) = x m ∧ x m.forget = x m) (h : ∀ a, Blind pc code m (f a)) :
    Blind pc code m fun m => x m >>= fun a => f a m := by
  refine given (f := fun x m => x >>= fun a => f a m) hx ?_
  cases x m with
  | error e => exact ⟨rfl, rfl, rfl⟩
  | ok a => exact h a

private theorem write {a : Machine → Word} {b : Machine → List UInt8} {f : Machine → Machine → Checked Machine}
    (ha : a (m.placed pc code) = a m ∧ a m.forget = a m) (hb : b (m.placed pc code) = b m ∧ b m.forget = b m)
    (h : ∀ mem, Blind pc code m fun m => f m { m with memory := mem }) :
    Blind pc code m fun m => m.writeBytes (a m) (b m) >>= f m := by
  simp only [Blind, Machine.writeBytes, ha, hb]
  split
  · exact h _
  · exact ⟨rfl, rfl, rfl⟩

private theorem store {a : Machine → Word} {b : Machine → List UInt8}
    (ha : a (m.placed pc code) = a m ∧ a m.forget = a m) (hb : b (m.placed pc code) = b m ∧ b m.forget = b m) :
    Blind pc code m fun m => m.writeBytes (a m) (b m) := by
  simp only [Blind, Machine.writeBytes, ha, hb]
  split <;> exact ⟨rfl, rfl, rfl⟩

private theorem modifySlot (addr : Word) {g : Machine → Word → Option Bool × Word}
    (hg : g (m.placed pc code) = g m ∧ g m.forget = g m) : Blind pc code m fun m => m.modifySlot addr (g m) := by
  refine given (f := fun g m => m.modifySlot addr g) hg (read ⟨rfl, rfl⟩ fun w => ?_)
  rcases g m w with ⟨_ | c, r⟩
  · exact write (a := fun _ => addr) (b := fun _ => r.bytes) ⟨rfl, rfl⟩ ⟨rfl, rfl⟩ fun _ => ⟨rfl, rfl, rfl⟩
  · exact write (m := m.setCarry c) (a := fun _ => addr) (b := fun _ => r.bytes) (f := fun _ m => .ok (m.setNZ r))
      ⟨rfl, rfl⟩ ⟨rfl, rfl⟩ fun _ => ⟨rfl, rfl, rfl⟩

private theorem implied {op : Opcode} (h : (Instruction.implied op).flow = .next) : Blind pc code m (·.implied op) := by
  cases op with
  | rts | brk => cases h
  | pla | plx | ply =>
    simp only [Machine.implied, Machine.pop, bind_assoc]
    exact read ⟨rfl, rfl⟩ fun _ => ⟨rfl, rfl, rfl⟩
  | pha | phx | phy => exact write ⟨rfl, rfl⟩ ⟨rfl, rfl⟩ fun _ => ⟨rfl, rfl, rfl⟩
  | _ => exact ⟨rfl, rfl, rfl⟩

private theorem direct {op : Opcode} {slot : UInt8} (h : (Instruction.direct op slot).flow = .next) :
    Blind pc code m (·.direct op slot) := by
  cases op with
  | jsrInd => cases h
  | staDp | stxDp | styDp | stzDp => exact store ⟨rfl, rfl⟩ ⟨rfl, rfl⟩
  | incDp | decDp | aslDp | lsrDp | rolDp | rorDp =>
    simp only [Machine.direct]
    refine modifySlot _ ?_
    exact ⟨rfl, rfl⟩
  | staInd | staIndY => exact read ⟨rfl, rfl⟩ fun ptr => store ⟨rfl, rfl⟩ ⟨rfl, rfl⟩
  | ldaInd | ldaIndY => exact read ⟨rfl, rfl⟩ fun ptr => read ⟨rfl, rfl⟩ fun w => ⟨rfl, rfl, rfl⟩
  | ldaDp | ldxDp | ldyDp | adcDp | sbcDp | andDp | oraDp | eorDp | cmpDp =>
    exact read ⟨rfl, rfl⟩ fun w => ⟨rfl, rfl, rfl⟩
  | _ => exact ⟨rfl, rfl, rfl⟩

private theorem immediate (op : Opcode) (w : Word) : Blind pc code m (·.immediate op w) := by
  cases op <;> exact ⟨rfl, rfl, rfl⟩

private theorem absolute {op : Opcode} {addr : Imm} (h : (Instruction.absolute op addr).flow = .next) (w : Word) :
    Blind pc code m (·.absolute op w) := by
  cases op with
  | jsr | jmp => cases h
  | ldaAbs => exact read ⟨rfl, rfl⟩ fun w => ⟨rfl, rfl, rfl⟩
  | staAbs => exact store ⟨rfl, rfl⟩ ⟨rfl, rfl⟩
  | _ => exact ⟨rfl, rfl, rfl⟩

private theorem absoluteX (op : Opcode) (base : UInt16) : Blind pc code m (·.absoluteX op base) := by
  cases op with
  | ldaAbsX => exact read ⟨rfl, rfl⟩ fun w => ⟨rfl, rfl, rfl⟩
  | staAbsX => exact store ⟨rfl, rfl⟩ ⟨rfl, rfl⟩
  | _ => exact ⟨rfl, rfl, rfl⟩

private theorem regAlu (op : RegAluOp) (dst : UInt8) (w : Word) : Blind pc code m (·.regAlu op dst w) := by
  refine read ⟨rfl, rfl⟩ fun d => ?_
  cases op with
  | cmpr => exact ⟨rfl, rfl, rfl⟩
  | _ => exact store ⟨rfl, rfl⟩ ⟨rfl, rfl⟩

private theorem setGpr (dst : UInt8) {w : Machine → Word} (hw : w (m.placed pc code) = w m ∧ w m.forget = w m) :
    Blind pc code m fun m => .ok (m.setGpr dst (w m)) := by
  refine given (f := fun w m => .ok (m.setGpr dst w)) hw ?_
  simp only [setGpr_eq]
  exact ⟨rfl, rfl, rfl⟩

private theorem shift (op : ShiftOp) (count dst src : UInt8) : Blind pc code m (·.shift op count dst src) := by
  have hcount (n : Nat) : Blind pc code m fun m =>
      if op.isBounded && 32 ≤ n then abort else .ok (m.setGpr dst (op.eval (m.gpr src) n)) := by
    split
    · exact ⟨rfl, rfl, rfl⟩
    · exact setGpr dst ⟨rfl, rfl⟩
  exact hcount (if count = shiftByA then m.a.toNat % 32 else count.toNat)

private theorem extDirect (op : ExtOpcode) (slot : UInt8) : Blind pc code m (·.extDirect op slot) := by
  refine read ⟨rfl, rfl⟩ fun w => ?_
  cases op with
  | stB | stW => exact write ⟨rfl, rfl⟩ ⟨rfl, rfl⟩ fun _ => ⟨rfl, rfl, rfl⟩
  | ldB | ldW => exact read ⟨rfl, rfl⟩ fun bytes => ⟨rfl, rfl, rfl⟩
  | div | divu =>
    dsimp only
    split <;> exact ⟨rfl, rfl, rfl⟩
  | _ => exact ⟨rfl, rfl, rfl⟩

private theorem floatMem (op : FloatMemOp) (prec : Precision) (freg : UInt8) {w : Machine → Word}
    (hw : w (m.placed pc code) = w m ∧ w m.forget = w m) : Blind pc code m fun m => m.floatMem op prec freg (w m) := by
  refine given (f := fun w m => m.floatMem op prec freg w) hw ?_
  cases op with
  | load => exact read ⟨rfl, rfl⟩ fun v => ⟨rfl, rfl, rfl⟩
  | store => exact store ⟨rfl, rfl⟩ ⟨rfl, rfl⟩

end Blind

variable (m : Machine) (pc : Word) (code : AddressMap (Option Instruction) 32)

/-- Instructions behind which control goes on do the same at every place, whatever those flags are. -/
theorem exec_placed {i : Instruction} (h : i.flow = .next) :
    Mirrors pc code m.symbols (m.exec i) ((m.placed pc code).exec i) (m.forget.exec i) := by
  change Blind pc code m (·.exec i)
  have hoperand (imm : Imm) : (m.placed pc code).operand imm = m.operand imm ∧ m.forget.operand imm = m.operand imm :=
    ⟨operand_placed .., operand_forget ..⟩
  cases i with
  | implied op => exact .implied h
  | direct op slot => exact .direct h
  | immediate op value => exact .read (hoperand value) fun w => .immediate op w
  | absolute op addr => exact .read (hoperand addr) fun w => .absolute h w
  | absoluteX op base => exact .absoluteX op base
  | branch | branchLong | bra | brl => cases h
  | regAlu op dst src => exact .read ⟨rfl, rfl⟩ fun w => .regAlu op dst w
  | regAluImm op dst value => exact .read (hoperand value) fun w => .regAlu op dst w
  | shift op count dst src => exact .shift op count dst src
  | extend op dst src => exact .setGpr dst ⟨rfl, rfl⟩
  | extImplied op => cases op <;> exact ⟨rfl, rfl, rfl⟩
  | extDirect op slot => exact .extDirect op slot
  | float op prec dst src => cases op <;> exact ⟨rfl, rfl, rfl⟩
  | floatMem op prec freg base => exact .floatMem op prec freg ⟨rfl, rfl⟩
  | floatMemAbs op prec freg addr => exact .read (hoperand addr) fun w => .floatMem op prec freg ⟨rfl, rfl⟩

/-- A return goes where it goes, whatever the code. -/
theorem exec_rts_placed :
    (m.placed pc code).exec (.implied .rts) = ({ · with code := code }) <$> m.exec (.implied .rts) := by
  simp only [exec, implied, pop, bind_assoc]
  change (m.readWord (m.sp + 4#32) >>= _) = _ <$> (m.readWord (m.sp + 4#32) >>= _)
  cases m.readWord (m.sp + 4#32) <;> rfl

end Machine

end DirectPage
