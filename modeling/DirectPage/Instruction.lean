import DirectPage.Condition
import DirectPage.Relocation.Kind

/-! Hardware instructions and what can be read off them. -/
namespace DirectPage

/-- A 32-bit operand: a constant, a symbol, or a label of the function at hand. -/
inductive Imm
  | value (k : Word)
  | symbol (s : SymbolRef)
  | label (l : Nat)
  deriving DecidableEq, Repr

namespace Imm

def value? : Imm → Option Word
  | value k => some k
  | _ => none

def isSymbolic : Imm → Bool
  | value _ => false
  | _ => true

end Imm

/-- One instruction. Slots are byte offsets in the direct page; `shift`, `extend` and the
base of `floatMem` name general registers by number, float operands float registers. -/
inductive Instruction
  | implied (op : Opcode)
  | direct (op : Opcode) (slot : UInt8)
  | immediate (op : Opcode) (value : Imm)
  | absolute (op : Opcode) (addr : Imm)
  | absoluteX (op : Opcode) (base : UInt16)
  | branch (cond : BranchCond) (offset : Word)
  | branchLong (cond : BranchCond) (offset : Word)
  | bra (offset : Word)
  | brl (offset : Word)
  | regAlu (op : RegAluOp) (dst src : UInt8)
  | regAluImm (op : RegAluOp) (dst : UInt8) (value : Imm)
  | shift (op : ShiftOp) (count dst src : UInt8)
  | extend (op : ExtendOp) (dst src : UInt8)
  | extImplied (op : ExtOpcode)
  | extDirect (op : ExtOpcode) (slot : UInt8)
  | float (op : FloatOp) (prec : Precision) (dst src : UInt8)
  | floatMem (op : FloatMemOp) (prec : Precision) (freg base : UInt8)
  | floatMemAbs (op : FloatMemOp) (prec : Precision) (freg : UInt8) (addr : Imm)
  deriving DecidableEq, Repr

namespace Instruction

def operand? : Instruction → Option Imm
  | immediate _ value => some value
  | absolute _ addr => some addr
  | regAluImm _ _ value => some value
  | floatMemAbs _ _ _ addr => some addr
  | _ => none

def mapOperand (f : Imm → Imm) : Instruction → Instruction
  | immediate op value => immediate op (f value)
  | absolute op addr => absolute op (f addr)
  | regAluImm op dst value => regAluImm op dst (f value)
  | floatMemAbs op prec freg addr => floatMemAbs op prec freg (f addr)
  | i => i

def operandOffset? : Instruction → Option Nat
  | immediate .. | absolute .. => some 2
  | regAluImm .. => some 4
  | floatMemAbs .. => some 3
  | _ => none

/-- Offset, field kind and operand, when the operand is not a constant. -/
def symbolic? (i : Instruction) : Option (Nat × FixupKind × Imm) := do
  let offset ← i.operandOffset?
  let operand ← i.operand?
  if operand.isSymbolic then some (offset, .abs32, operand) else none

def branchField? : Instruction → Option (Nat × FixupKind)
  | branch .. | bra _ => some (1, .pcRel8)
  | brl _ => some (1, .pcRel16)
  | branchLong .. => some (3, .pcRel16)
  | _ => none

def branchOffset? : Instruction → Option Word
  | branch _ offset | branchLong _ offset | bra offset | brl offset => some offset
  | _ => none

/-- The branch with another displacement; other instructions stay. -/
def withBranchOffset (offset : Word) : Instruction → Instruction
  | branch cond _ => branch cond offset
  | branchLong cond _ => branchLong cond offset
  | bra _ => bra offset
  | brl _ => brl offset
  | i => i

def relaxed? : Instruction → Option Instruction
  | branch cond offset => some (branchLong cond offset)
  | bra offset => some (brl offset)
  | _ => none

def isUnconditionalJump : Instruction → Bool
  | bra _ | brl _ | absolute .jmp _ => true
  | _ => false

/-- Whether control need not continue behind the instruction. -/
def isTerminating : Instruction → Bool
  | implied op | absolute op _ => op.isTerminating
  | branch .. | branchLong .. | bra _ | brl _ => true
  | _ => false

def writesSlot : Opcode → Bool
  | .staDp | .stxDp | .styDp | .stzDp | .incDp | .decDp | .aslDp | .lsrDp | .rolDp | .rorDp => true
  | _ => false

def destSlot? : Instruction → Option UInt8
  | direct op slot => if writesSlot op then some slot else none
  | regAlu op dst _ | regAluImm op dst _ => if op = .cmpr then none else some dst
  | shift _ _ dst _ | extend _ dst _ => some (dst * 4)
  | _ => none

def opcode? : Instruction → Option Opcode
  | implied op | direct op _ | immediate op _ | absolute op _ | absoluteX op _ => some op
  | branch cond _ => some cond.opcode
  | bra _ => some .bra
  | brl _ => some .brl
  | _ => none

end Instruction

end DirectPage
