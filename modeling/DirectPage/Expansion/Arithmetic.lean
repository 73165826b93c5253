import DirectPage.Expansion.Operand

/-! Instructions for integer and float arithmetic.

Integer operations load the left operand, combine it with the slot of the right one and
store the result. Float arithmetic overwrites its left operand. -/
namespace DirectPage.Expansion

def loadImm (dst : Reg) (value : Word) : Code := do
  let d ← dst.slot
  return [if value = 0#32 then .direct .stzDp d else .regAluImm .movr d (.value value)]

def carryIn : AluOp → List Instruction
  | .add => [.implied .clc]
  | .sub => [.implied .sec]
  | .and | .or | .xor => []

def slotOpcode : AluOp → Opcode
  | .add => .adcDp
  | .sub => .sbcDp
  | .and => .andDp
  | .or => .oraDp
  | .xor => .eorDp

def constOpcode : AluOp → Opcode
  | .add => .adcImm
  | .sub => .sbcImm
  | .and => .andImm
  | .or => .oraImm
  | .xor => .eorImm

def alu (op : AluOp) (dst lhs rhs : Reg) : Code := do
  let d ← dst.slot
  let l ← lhs.slot
  let r ← rhs.slot
  return lda l :: carryIn op ++ [.direct (slotOpcode op) r, sta d]

/-- An operation with a constant. Adding zero is a copy, and one is added to or subtracted
from a slot in place. -/
def aluImm (op : AluOp) (dst lhs : Reg) (imm : Word) : Code := do
  let d ← dst.slot
  let l ← lhs.slot
  if op = .add ∧ imm = 0#32 then copy dst lhs
  else if op = .add ∧ imm = 1#32 ∧ d = l then return [.direct .incDp d]
  else if op = .add ∧ imm = -1#32 ∧ d = l then return [.direct .decDp d]
  else return lda l :: carryIn op ++ [withConst (constOpcode op) imm, sta d]

/-- The instruction of the multiplier or divider, and whether the second part of its result
is wanted: the high word of a product or the remainder. -/
def mulDivOpcode : MulDivOp → ExtOpcode × Bool
  | .mul => (.mul, false)
  | .mulHs => (.mul, true)
  | .mulHu => (.mulu, true)
  | .sdiv => (.div, false)
  | .udiv => (.divu, false)
  | .srem => (.div, true)
  | .urem => (.divu, true)

def mulDiv (op : MulDivOp) (dst lhs rhs : Reg) : Code := do
  let d ← dst.slot
  let l ← lhs.slot
  let r ← rhs.slot
  let (ext, second) := mulDivOpcode op
  return lda l :: .extDirect ext r :: (if second then [.extImplied .tta] else []) ++ [sta d]

def shiftOp : ShiftKind → ShiftOp
  | .shl => .shl
  | .lshr => .shr
  | .ashr => .sar
  | .rotl => .rol
  | .rotr => .ror

def shiftWith (setup : List Instruction) (kind : ShiftKind) (count : UInt8) (rd rs : Register) :
    Code := do
  let dn ← rd.number
  let sn ← rs.number
  return setup ++ [Instruction.shift (shiftOp kind) count dn sn]

/-- Shifts. The largest count field stands for a count in the accumulator. -/
def shift (kind : ShiftKind) (dst src : Reg) (amount : ShiftAmount) : Code := do
  let rd ← dst.assigned
  let rs ← src.assigned
  match amount with
  | .reg a => shiftWith [lda (← a.slot)] kind shiftByA rd rs
  | .imm n =>
    let n := n &&& 31
    if n = 0 then copy dst src
    else if n = 1 ∧ kind = .shl ∧ rd = rs then return [.direct .aslDp (← rd.slot)]
    else if n = 1 ∧ kind = .lshr ∧ rd = rs then return [.direct .lsrDp (← rd.slot)]
    else if n = shiftByA then shiftWith [withConst .ldaImm 31#32] kind shiftByA rd rs
    else shiftWith [] kind n rd rs

def extendOp? : UnaryOp → Option ExtendOp
  | .neg | .not => none
  | .sext8 => some .sext8
  | .sext16 => some .sext16
  | .zext8 => some .zext8
  | .zext16 => some .zext16
  | .clz => some .clz
  | .ctz => some .ctz
  | .popcnt => some .popcnt

def unary (op : UnaryOp) (dst src : Reg) : Code := do
  let d ← dst.slot
  let s ← src.slot
  match op, extendOp? op with
  | _, some ext => return [.extend ext (← dst.number) (← src.number)]
  | .neg, none => return [.implied .sec, withConst .ldaImm 0#32, .direct .sbcDp s, sta d]
  | _, none => return [lda s, withConst .eorImm (-1#32), sta d]

def floatOp : FAluOp → FloatOp
  | .add => .add
  | .sub => .sub
  | .mul => .mul
  | .div => .div

/-- Float arithmetic. Where the destination is the right operand, that operand is saved unless
the order does not matter. -/
def falu (op : FAluOp) (prec : Precision) (dst lhs rhs : Reg) : Code := do
  let d ← dst.number
  let l ← lhs.number
  let r ← rhs.number
  let apply (src : UInt8) : Instruction := .float (floatOp op) prec d src
  if d = r ∧ d ≠ l then
    if op.isCommutative then return [apply l]
    else
      let t ← floatScratch.number
      return [.float .mov prec t r, .float .mov prec d l, apply t]
  else if d = l then return [apply r]
  else return [.float .mov prec d l, apply r]

def funary (op : FUnaryOp) (prec : Precision) (dst src : Reg) : Code := do
  let op : FloatOp := match op with
    | .neg => .neg
    | .abs => .abs
    | .sqrt => .sqrt
  let d ← dst.number
  let s ← src.number
  return [.float op prec d s]

def floatToSlot (op : FloatOp) (prec : Precision) (dst src : Reg) : Code := do
  let s ← src.number
  let d ← dst.slot
  return [.float op prec 0 s, sta d]

def slotToFloat (op : FloatOp) (prec : Precision) (dst src : Reg) : Code := do
  let s ← src.slot
  let d ← dst.number
  return [lda s, .float op prec d 0]

def fconvert (prec : Precision) (dst src : Reg) : Code := do
  let d ← dst.number
  let s ← src.number
  return [.float .convert prec d s]

end DirectPage.Expansion
