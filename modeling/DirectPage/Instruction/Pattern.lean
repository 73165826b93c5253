import DirectPage.Instruction

/-! Patterns over instruction sequences. -/
namespace DirectPage

inductive Pat (α : Type)
  | any
  | exact (a : α)

def Pat.fits {α : Type} [DecidableEq α] : Pat α → α → Bool
  | any, _ => true
  | exact a, b => decide (a = b)

inductive InstructionPattern
  | any
  | implied (op : Pat Opcode)
  | direct (op : Pat Opcode) (slot : Pat UInt8)
  | immediate (op : Pat Opcode) (value : Pat Word)
  | absoluteSymbol (op : Pat Opcode) (symbol : Pat String)
  | branch (cond : Pat BranchCond)
  | regAlu (op : Pat RegAluOp) (dst src : Pat UInt8)
  | shift (op : Pat ShiftOp) (count : Pat UInt8)
  | extend (op : Pat ExtendOp)
  | ext (op : Pat ExtOpcode)
  | float (op : Pat FloatOp) (prec : Pat Precision)

/-- Whether an instruction fits. Short and long conditional branches are alike. -/
def InstructionPattern.fits : InstructionPattern → Instruction → Bool
  | any, _ => true
  | implied op, .implied o => op.fits o
  | direct op slot, .direct o s => op.fits o && slot.fits s
  | immediate op value, .immediate o (.value k) => op.fits o && value.fits k
  | absoluteSymbol op symbol, .absolute o (.symbol s) => op.fits o && symbol.fits s.name
  | branch cond, .branch c _ => cond.fits c
  | branch cond, .branchLong c _ => cond.fits c
  | regAlu op dst src, .regAlu o d s => op.fits o && dst.fits d && src.fits s
  | shift op count, .shift o c _ _ => op.fits o && count.fits c
  | extend op, .extend o _ _ => op.fits o
  | ext op, .extImplied o => op.fits o
  | ext op, .extDirect o _ => op.fits o
  | float op prec, .float o p _ _ => op.fits o && prec.fits p
  | _, _ => false

namespace Instruction

def startsWith : List InstructionPattern → List Instruction → Bool
  | [], _ => true
  | _ :: _, [] => false
  | p :: ps, i :: is => p.fits i && startsWith ps is

def findPattern? (pattern : List InstructionPattern) : List Instruction → Option Nat
  | [] => if startsWith pattern [] then some 0 else none
  | i :: is =>
    if startsWith pattern (i :: is) then some 0 else (findPattern? pattern is).map (· + 1)

def countOpcode (is : List Instruction) (op : Opcode) : Nat :=
  is.countP fun i => i.opcode? == some op

end Instruction

end DirectPage
