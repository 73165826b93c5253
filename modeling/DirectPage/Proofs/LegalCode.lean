import DirectPage.Proofs.Memory
import DirectPage.Simulator.Step

/-! Which instructions the machine runs.

An opcode of the base page is used in one way only, and the machine rejects it in every other form. Together with the
widths of the fields this says which instructions can be told apart by their bytes. -/
namespace DirectPage

inductive Mode
  | implied | direct | immediate | absolute | absoluteX | branch | bra | brl
  deriving DecidableEq, Repr

def Opcode.mode? : Opcode → Option Mode
  | brk | clc | incA | sec | decA | pha | phy | rts | pla | ply | txa | tya | txs | tay | tax | clv | tsx | phx | nop
  | plx => some .implied
  | oraDp | aslDp | andDp | rolDp | eorDp | lsrDp | stzDp | adcDp | rorDp | styDp | staDp | stxDp | staIndY | staInd
  | ldyDp | ldaDp | ldxDp | ldaIndY | ldaInd | cmpDp | decDp | sbcDp | incDp | jsrInd => some .direct
  | oraImm | andImm | eorImm | adcImm | ldyImm | ldxImm | ldaImm | cmpImm | sbcImm => some .immediate
  | jsr | jmp | staAbs | ldaAbs => some .absolute
  | staAbsX | ldaAbsX => some .absoluteX
  | bpl | bmi | bvc | bvs | bcc | bcs | bne | beq => some .branch
  | bra => some .bra
  | brl => some .brl
  | aslA | rolA | lsrA | rorA => none

def SimFault.isRejection : SimFault → Bool
  | unsupported .. | ttaOperand => true
  | _ => false

def Accepted {α : Type} (x : Checked α) : Prop := ∀ cause, x = fault cause → cause.isRejection = false

namespace Instruction

def isDispatched : Instruction → Bool
  | implied op => op.mode? == some .implied
  | direct op _ => op.mode? == some .direct
  | immediate op _ => op.mode? == some .immediate
  | absolute op _ => op.mode? == some .absolute
  | absoluteX op _ => op.mode? == some .absoluteX
  | extImplied op => op == .tta
  | extDirect op _ => op != .tta
  | _ => true

def fieldsFit : Instruction → Bool
  | shift _ count dst src => count < 32 && dst < 64 && src < 64
  | extend _ dst src => dst < 64 && src < 64
  | float _ _ dst src => dst < 16 && src < 16
  | floatMem _ _ freg base => freg < 16 && base < 16
  | floatMemAbs _ _ freg _ => freg < 16
  | _ => true

def offsetFits (i : Instruction) : Bool :=
  match i.branchField?, i.branchOffset? with
  | some (_, kind), some offset => kind.inRange offset.toInt
  | _, _ => true

/-- The machine does not reject the opcode, and the encoding leaves nothing out. -/
structure Legal (i : Instruction) : Prop where
  accepted (m : Machine) : Accepted (m.exec i)
  fields : i.fieldsFit = true
  offset : i.offsetFits = true
  operand : i.operand?.all (!·.isSymbolic) = true

end Instruction

namespace Accepted

variable {α β : Type} {m : Machine}

theorem ok (a : α) : Accepted (.ok a : Checked α) := nofun

theorem stop : Accepted (abort : Checked α) := nofun

theorem fault {cause : SimFault} (h : cause.isRejection = false) : Accepted (DirectPage.fault cause : Checked α) := by
  rintro _ ⟨⟩
  exact h

theorem bind {x : Checked α} {f : α → Checked β} (hx : Accepted x) (hf : ∀ a, Accepted (f a)) :
    Accepted (x >>= f) := by
  intro cause h
  cases x with
  | error e =>
    cases h
    exact hx cause rfl
  | ok a => exact hf a cause h

theorem readBytes (addr : Word) (count : Nat) : Accepted (m.readBytes addr count) := by
  unfold Machine.readBytes
  split
  · exact ok _
  · exact fault rfl

theorem writeBytes (addr : Word) (bytes : List UInt8) : Accepted (m.writeBytes addr bytes) := by
  unfold Machine.writeBytes
  split
  · exact ok _
  · exact fault rfl

theorem readWord (addr : Word) : Accepted (m.readWord addr) := by
  refine bind (readBytes addr 4) fun bytes => ?_
  split <;> exact ok _

theorem push (w : Word) : Accepted (m.push w) := bind (writeBytes _ _) fun _ => ok _

theorem pop : Accepted m.pop := bind (readWord _) fun _ => ok _

theorem operand (imm : Imm) : Accepted (m.operand imm) := by
  cases imm with
  | value k => exact ok k
  | symbol s =>
    refine bind ?_ fun _ => ok _
    rcases m.symbols.lookup s.name with _ | base
    · nofun
    · exact ok base
  | label l => exact fault rfl

theorem modifySlot (addr : Word) (change : Word → Option Bool × Word) : Accepted (m.modifySlot addr change) :=
  bind (readWord _) fun _ => bind (writeBytes _ _) fun _ => ok _

variable {op : Opcode}

theorem implied (h : op.mode? = some .implied) : Accepted (m.implied op) := by
  cases op with
  | brk => exact fault rfl
  | pha | phx | phy => exact push _
  | pla | plx | ply | rts => exact bind pop fun _ => ok _
  | nop | clc | sec | clv | incA | decA | txa | tax | tya | tay | tsx | txs => exact ok _
  | _ => cases h

theorem direct (h : op.mode? = some .direct) (slot : UInt8) : Accepted (m.direct op slot) := by
  cases op <;> simp only [Machine.direct]
  case ldaDp | ldxDp | ldyDp | adcDp | sbcDp | andDp | oraDp | eorDp | cmpDp => exact bind (readWord _) fun _ => ok _
  case staDp | stxDp | styDp | stzDp => exact writeBytes _ _
  case incDp | decDp | aslDp | lsrDp | rolDp | rorDp => exact modifySlot _ _
  case ldaInd | ldaIndY => exact bind (readWord _) fun _ => bind (readWord _) fun _ => ok _
  case staInd | staIndY => exact bind (readWord _) fun _ => writeBytes _ _
  case jsrInd => exact bind (readWord _) fun _ => bind (push _) fun _ => ok _
  all_goals cases h

theorem immediate (h : op.mode? = some .immediate) (w : Word) : Accepted (m.immediate op w) := by
  cases op with
  | ldaImm | ldxImm | ldyImm | adcImm | sbcImm | andImm | oraImm | eorImm | cmpImm => exact ok _
  | _ => cases h

theorem absolute (h : op.mode? = some .absolute) (addr : Word) : Accepted (m.absolute op addr) := by
  cases op with
  | ldaAbs => exact bind (readWord _) fun _ => ok _
  | staAbs => exact writeBytes _ _
  | jsr => exact bind (push _) fun _ => ok _
  | jmp => exact ok _
  | _ => cases h

theorem absoluteX (h : op.mode? = some .absoluteX) (base : UInt16) : Accepted (m.absoluteX op base) := by
  cases op with
  | ldaAbsX => exact bind (readWord _) fun _ => ok _
  | staAbsX => exact writeBytes _ _
  | _ => cases h

theorem regAlu (op : RegAluOp) (dst : UInt8) (w : Word) : Accepted (m.regAlu op dst w) := by
  refine bind (readWord _) fun _ => ?_
  cases op with
  | cmpr => exact ok _
  | _ => exact writeBytes _ _

theorem shift (op : ShiftOp) (count dst src : UInt8) : Accepted (m.shift op count dst src) := by
  have hcount (n : Nat) : Accepted
      (if op.isBounded && 32 ≤ n then abort else .ok (m.setGpr dst (op.eval (m.gpr src) n))) := by
    split
    · exact stop
    · exact ok _
  exact hcount _

theorem extDirect {op : ExtOpcode} (h : op ≠ .tta) (slot : UInt8) : Accepted (m.extDirect op slot) := by
  refine bind (readWord _) fun w => ?_
  cases op with
  | mul | mulu => exact ok _
  | div | divu =>
    dsimp only
    split
    · exact fault rfl
    · exact ok _
  | ldB | ldW => exact bind (readBytes _ _) fun _ => ok _
  | stB | stW => exact bind (writeBytes _ _) fun _ => ok _
  | tta => exact absurd rfl h

theorem floatMem (op : FloatMemOp) (prec : Precision) (freg : UInt8) (addr : Word) :
    Accepted (m.floatMem op prec freg addr) := by
  cases op with
  | load =>
    refine bind ?_ fun _ => ok _
    cases prec with
    | single => exact bind (readWord _) fun _ => ok _
    | double => exact bind (readBytes _ _) fun _ => ok _
  | store => exact writeBytes _ _

end Accepted

namespace Instruction

variable {i : Instruction}

theorem accepted_of_isDispatched (h : i.isDispatched = true) (m : Machine) : Accepted (m.exec i) := by
  cases i with
  | implied op => exact .implied (eq_of_beq h)
  | direct op slot => exact .direct (eq_of_beq h) slot
  | immediate op value => exact .bind (.operand value) fun w => .immediate (eq_of_beq h) w
  | absolute op addr => exact .bind (.operand addr) fun w => .absolute (eq_of_beq h) w
  | absoluteX op base => exact .absoluteX (eq_of_beq h) base
  | branch | branchLong | bra | brl | extend | float => exact .ok _
  | regAlu op dst src => exact .bind (.readWord _) fun w => .regAlu op dst w
  | regAluImm op dst value => exact .bind (.operand value) fun w => .regAlu op dst w
  | shift op count dst src => exact .shift op count dst src
  | extImplied op =>
    cases eq_of_beq h
    exact .ok _
  | extDirect op slot => exact .extDirect (bne_iff_ne.mp h) slot
  | floatMem op prec freg base => exact .floatMem op prec freg _
  | floatMemAbs op prec freg addr => exact .bind (.operand addr) fun w => .floatMem op prec freg w

/-- What no form is there for is rejected from every state. -/
theorem exec_of_not_isDispatched (h : i.isDispatched = false) (hvalue : i.operand?.all (!·.isSymbolic) = true)
    (m : Machine) : ∃ cause, m.exec i = fault cause ∧ cause.isRejection = true := by
  cases i with
  | implied op =>
    refine ⟨.unsupported "implied" op.name, ?_, rfl⟩
    cases op <;> first | rfl | cases h
  | direct op slot =>
    refine ⟨.unsupported "direct-page" op.name, ?_, rfl⟩
    cases op <;> first | rfl | cases h
  | immediate op value =>
    cases value with
    | value k =>
      refine ⟨.unsupported "immediate" op.name, ?_, rfl⟩
      cases op <;> first | rfl | cases h
    | symbol | label => cases hvalue
  | absolute op addr =>
    cases addr with
    | value k =>
      refine ⟨.unsupported "absolute" op.name, ?_, rfl⟩
      cases op <;> first | rfl | cases h
    | symbol | label => cases hvalue
  | absoluteX op base =>
    refine ⟨.unsupported "absolute,X" op.name, ?_, rfl⟩
    cases op <;> first | rfl | cases h
  | extImplied op =>
    refine ⟨.unsupported "extended" op.name, ?_, rfl⟩
    cases op <;> first | rfl | cases h
  | extDirect op slot =>
    cases (bne_eq_false_iff_eq).mp h
    refine ⟨.ttaOperand, ?_, rfl⟩
    change (m.readWord (Machine.slotAddr slot) >>= fun _ => fault .ttaOperand) = _
    rw [Machine.readWord_slot]
    rfl
  | _ => cases h

theorem Legal.isDispatched (h : i.Legal) : i.isDispatched = true := by
  cases hdisp : i.isDispatched with
  | true => rfl
  | false =>
    obtain ⟨cause, hexec, hreject⟩ := exec_of_not_isDispatched hdisp h.operand {}
    rw [h.accepted {} cause hexec] at hreject
    cases hreject

theorem Legal.isSymbolic_eq_false (h : i.Legal) {imm : Imm} (himm : i.operand? = some imm) :
    imm.isSymbolic = false := by
  have hvalue := h.operand
  rw [himm] at hvalue
  cases imm with
  | value => rfl
  | symbol | label => cases hvalue

/-- Which instructions are legal can be read off them. -/
theorem legal_iff : i.Legal ↔
    i.isDispatched = true ∧ i.fieldsFit = true ∧ i.offsetFits = true ∧ i.operand?.all (!·.isSymbolic) = true :=
  ⟨fun h => ⟨h.isDispatched, h.fields, h.offset, h.operand⟩,
    fun ⟨hdisp, hfields, hoffset, hoperand⟩ => ⟨accepted_of_isDispatched hdisp, hfields, hoffset, hoperand⟩⟩

instance (i : Instruction) : Decidable i.Legal := decidable_of_iff _ legal_iff.symm

end Instruction

end DirectPage
