import DirectPage.Selection.Compare

/-! Shifts of a pair of words.

A constant amount needs plain shifts of words. For any other amount the results below 32
and from 32 on are both computed and one is selected. Bits that cross the words are moved by
one and then by 31 less the amount, so that an amount of zero moves none. -/
namespace DirectPage.Selection

def shifted (kind : ShiftKind) (src : Reg) (amount : ShiftAmount) : Select Reg := do
  let d ← temp .gpr
  emit (.shift kind d src amount)
  return d

def shiftedBy (kind : ShiftKind) (src : Reg) (n : Nat) : Select Reg :=
  shifted kind src (.imm (UInt8.ofNat (n % 32)))

def unionOf (lhs rhs : Reg) : Select Reg := do
  let d ← temp .gpr
  emit (.alu .or d lhs rhs)
  return d

def zeroReg : Select Reg := do
  let d ← temp .gpr
  emit (.loadImm d 0#32)
  return d

def rightKind : Ir.ShiftPartsOp → ShiftKind
  | .ashr => .ashr
  | _ => .lshr

def constantParts (op : Ir.ShiftPartsOp) (lo hi : Reg) (k : Nat) : Select (Reg × Reg) := do
  if k = 0 then return (lo, hi)
  else if k < 32 then
    match op with
    | .shl =>
      let upper ← shiftedBy .shl hi k
      let carry ← shiftedBy .lshr lo (32 - k)
      let newHi ← unionOf upper carry
      let newLo ← shiftedBy .shl lo k
      return (newLo, newHi)
    | _ =>
      let lower ← shiftedBy .lshr lo k
      let carry ← shiftedBy .shl hi (32 - k)
      let newLo ← unionOf lower carry
      let newHi ← shiftedBy (rightKind op) hi k
      return (newLo, newHi)
  else
    match op with
    | .shl =>
      let newHi ← shiftedBy .shl lo (k - 32)
      return (← zeroReg, newHi)
    | .lshr =>
      let newLo ← shiftedBy .lshr hi (k - 32)
      return (newLo, ← zeroReg)
    | .ashr =>
      let newLo ← shiftedBy .ashr hi (k - 32)
      let newHi ← shiftedBy .ashr hi 31
      return (newLo, newHi)

structure VariableParts where
  /-- Low and high result below 32. -/
  small : Reg × Reg
  /-- Low and high result from 32 on. -/
  big : Reg × Reg
  amount : Reg

def variableParts (op : Ir.ShiftPartsOp) (lo hi amount : Reg) : Select VariableParts := do
  let a ← temp .gpr
  emit (.aluImm .and a amount 63#32)
  let neg ← temp .gpr
  emit (.unary .neg neg a)
  let inv ← temp .gpr
  emit (.aluImm .add inv neg 31#32)
  match op with
  | .shl =>
    let upper ← shifted .shl hi (.reg a)
    let half ← shiftedBy .lshr lo 1
    let carry ← shifted .lshr half (.reg inv)
    let hiSmall ← unionOf upper carry
    let loSmall ← shifted .shl lo (.reg a)
    let hiBig ← shifted .shl lo (.reg a)
    let loBig ← zeroReg
    return ⟨(loSmall, hiSmall), (loBig, hiBig), a⟩
  | _ =>
    let lower ← shifted .lshr lo (.reg a)
    let half ← shiftedBy .shl hi 1
    let carry ← shifted .shl half (.reg inv)
    let loSmall ← unionOf lower carry
    let hiSmall ← shifted (rightKind op) hi (.reg a)
    let loBig ← shifted (rightKind op) hi (.reg a)
    let hiBig ← if op = .ashr then shiftedBy .ashr hi 31 else zeroReg
    return ⟨(loSmall, hiSmall), (loBig, hiBig), a⟩

/-- Shift a pair of words as one number, by an amount modulo 64. -/
def shiftParts (f : Ir.Function) (op : Ir.ShiftPartsOp) (dstLo dstHi lo hi : Ir.Value)
    (amount : Ir.Operand) : Select Unit := do
  let _ ← legal .shiftParts .i32
  let l ← reg f lo
  let h ← reg f hi
  let dl ← reg f dstLo
  let dh ← reg f dstHi
  match amount with
  | .imm k =>
    let (newLo, newHi) ← constantParts op l h (k.toNat % 64)
    emit (.copy dl newLo)
    emit (.copy dh newHi)
  | .value v =>
    let parts ← variableParts op l h (← reg f v)
    match intCompare .uge parts.amount (.imm 32#32) with
    | .constant _ => defect .shiftFold
    | .compare cmp =>
      emit (.selectCc cmp dl parts.big.1 parts.small.1)
      emit (.selectCc cmp dh parts.big.2 parts.small.2)

end DirectPage.Selection
