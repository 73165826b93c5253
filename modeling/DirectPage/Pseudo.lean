import DirectPage.Condition.Canonical
import DirectPage.Ir.Inst

/-! Pseudo-operations: abstract operations of the target over virtual or assigned registers.

Instruction selection produces them, and expansion turns each into hardware instructions
once every register is assigned. -/
namespace DirectPage

/-- A register operand: virtual, by number, or assigned. -/
inductive Reg
  | virt (v : Nat)
  | phys (r : Register)
  deriving DecidableEq, Repr, Hashable

def Reg.virt? : Reg → Option Nat
  | virt v => some v
  | phys _ => none

inductive AluOp
  | add | sub | and | or | xor
  deriving DecidableEq, Repr

inductive MulDivOp
  | mul | mulHs | mulHu | sdiv | udiv | srem | urem
  deriving DecidableEq, Repr

inductive ShiftKind
  | shl | lshr | ashr | rotl | rotr
  deriving DecidableEq, Repr

/-- A constant count below 32, or a register whose low five bits count. -/
inductive ShiftAmount
  | imm (n : UInt8)
  | reg (r : Reg)
  deriving DecidableEq, Repr

inductive UnaryOp
  | neg | not | sext8 | sext16 | zext8 | zext16 | clz | ctz | popcnt
  deriving DecidableEq, Repr

inductive FAluOp
  | add | sub | mul | div
  deriving DecidableEq, Repr

def FAluOp.isCommutative : FAluOp → Bool
  | add | mul => true
  | sub | div => false

inductive FUnaryOp
  | neg | abs | sqrt
  deriving DecidableEq, Repr

inductive Width
  | byte | half | word
  deriving DecidableEq, Repr

/-- What an integer access starts from: a register, a frame object, the stack pointer
(outgoing arguments), or a symbol. -/
inductive MemBase
  | reg (r : Reg)
  | frame (index : Nat)
  | sp
  | symbol (s : SymbolRef)
  deriving DecidableEq, Repr

/-- What a float access uses: one of the first sixteen registers, or a symbol. -/
inductive FMemBase
  | reg (r : Reg)
  | symbol (s : SymbolRef)
  deriving DecidableEq, Repr

inductive AddrTarget
  | symbol (s : SymbolRef)
  | block (b : Ir.BlockId)
  | pool (i : Nat)
  deriving DecidableEq, Repr

inductive Compare
  | int (cc : CondCode) (lhs : Reg) (rhs : CmpRhs Reg)
  | float (cc : FloatCond) (prec : Precision) (lhs rhs : Reg)
  deriving DecidableEq, Repr

inductive CallTarget
  | symbol (name : String)
  | reg (r : Reg)
  deriving DecidableEq, Repr

/-- One pseudo-operation. The last five are placed by prologue and epilogue. -/
inductive Pseudo
  | loadImm (dst : Reg) (value : Word)
  | loadAddr (dst : Reg) (target : AddrTarget)
  | frameAddr (dst : Reg) (index : Nat) (offset : Word)
  | spAddr (dst : Reg) (offset : Word)
  | copy (dst src : Reg)
  | alu (op : AluOp) (dst lhs rhs : Reg)
  | aluImm (op : AluOp) (dst lhs : Reg) (imm : Word)
  | mulDiv (op : MulDivOp) (dst lhs rhs : Reg)
  | shift (op : ShiftKind) (dst src : Reg) (amount : ShiftAmount)
  | unary (op : UnaryOp) (dst src : Reg)
  | load (dst : Reg) (width : Width) (ext : Ir.Extension) (base : MemBase) (offset : Word)
  | store (src : Reg) (width : Width) (base : MemBase) (offset : Word)
  | fload (dst : Reg) (prec : Precision) (base : FMemBase)
  | fstore (src : Reg) (prec : Precision) (base : FMemBase)
  | falu (op : FAluOp) (prec : Precision) (dst lhs rhs : Reg)
  | funary (op : FUnaryOp) (prec : Precision) (dst src : Reg)
  | ftoi (prec : Precision) (dst src : Reg)
  | itof (prec : Precision) (dst src : Reg)
  | fconvert (prec : Precision) (dst src : Reg)
  | floatBits (dst src : Reg)
  | bitsFloat (dst src : Reg)
  | selectCc (cmp : Compare) (dst onTrue onFalse : Reg)
  | dynAlloc (dst size : Reg) (align : Nat)
  | callStackDown (size : Nat)
  | callStackUp (size : Nat)
  | call (target : CallTarget) (args clobbers : List Register)
  | brCc (cmp : Compare) (target : Ir.BlockId)
  | jump (target : Ir.BlockId)
  | ret (results : List Register)
  | trap
  | push (reg : Register)
  | pop (reg : Register)
  | spAdjust (delta : Word)
  | setFrameBase
  | restoreSp
  deriving DecidableEq, Repr

def MemBase.regs : MemBase → List Reg
  | reg r => [r]
  | _ => []

def MemBase.map (g : Reg → Reg) : MemBase → MemBase
  | reg r => reg (g r)
  | base => base

def FMemBase.regs : FMemBase → List Reg
  | reg r => [r]
  | symbol _ => []

def FMemBase.map (g : Reg → Reg) : FMemBase → FMemBase
  | reg r => reg (g r)
  | base => base

def ShiftAmount.regs : ShiftAmount → List Reg
  | reg r => [r]
  | imm _ => []

def ShiftAmount.map (g : Reg → Reg) : ShiftAmount → ShiftAmount
  | reg r => reg (g r)
  | amount => amount

def Compare.regs : Compare → List Reg
  | int _ lhs (.reg r) => [lhs, r]
  | int _ lhs (.imm _) => [lhs]
  | float _ _ lhs rhs => [lhs, rhs]

def Compare.map (g : Reg → Reg) : Compare → Compare
  | int cc lhs (.reg r) => int cc (g lhs) (.reg (g r))
  | int cc lhs (.imm k) => int cc (g lhs) (.imm k)
  | float cc prec lhs rhs => float cc prec (g lhs) (g rhs)

namespace Pseudo

def isTerminator : Pseudo → Bool
  | brCc .. | jump _ | ret _ | trap => true
  | _ => false

def isCall : Pseudo → Bool
  | call .. => true
  | _ => false

def isReturn : Pseudo → Bool
  | ret _ => true
  | _ => false

def dst? : Pseudo → Option Reg
  | loadImm dst _ | loadAddr dst _ | frameAddr dst _ _ | spAddr dst _ | copy dst _ | alu _ dst _ _
  | aluImm _ dst _ _ | mulDiv _ dst _ _ | shift _ dst _ _ | unary _ dst _ | load dst _ _ _ _
  | fload dst _ _ | falu _ _ dst _ _ | funary _ _ dst _ | ftoi _ dst _ | itof _ dst _
  | fconvert _ dst _ | floatBits dst _ | bitsFloat dst _ | selectCc _ dst _ _ | dynAlloc dst _ _ =>
    some dst
  | _ => none

def withDst (d : Reg) : Pseudo → Pseudo
  | loadImm _ value => loadImm d value
  | loadAddr _ target => loadAddr d target
  | frameAddr _ index offset => frameAddr d index offset
  | spAddr _ offset => spAddr d offset
  | copy _ src => copy d src
  | alu op _ lhs rhs => alu op d lhs rhs
  | aluImm op _ lhs imm => aluImm op d lhs imm
  | mulDiv op _ lhs rhs => mulDiv op d lhs rhs
  | shift op _ src amount => shift op d src amount
  | unary op _ src => unary op d src
  | load _ width ext base offset => load d width ext base offset
  | fload _ prec base => fload d prec base
  | falu op prec _ lhs rhs => falu op prec d lhs rhs
  | funary op prec _ src => funary op prec d src
  | ftoi prec _ src => ftoi prec d src
  | itof prec _ src => itof prec d src
  | fconvert prec _ src => fconvert prec d src
  | floatBits _ src => floatBits d src
  | bitsFloat _ src => bitsFloat d src
  | selectCc cmp _ onTrue onFalse => selectCc cmp d onTrue onFalse
  | dynAlloc _ size align => dynAlloc d size align
  | m => m

def defs (m : Pseudo) : List Reg :=
  match m with
  | call _ _ clobbers => clobbers.map .phys
  | pop reg => [.phys reg]
  | _ => m.dst?.toList

def uses : Pseudo → List Reg
  | copy _ src | aluImm _ _ src _ | unary _ _ src | funary _ _ _ src | ftoi _ _ src | itof _ _ src
  | fconvert _ _ src | floatBits _ src | bitsFloat _ src | dynAlloc _ src _ => [src]
  | alu _ _ lhs rhs | mulDiv _ _ lhs rhs | falu _ _ _ lhs rhs => [lhs, rhs]
  | shift _ _ src amount => src :: amount.regs
  | load _ _ _ base _ => base.regs
  | store src _ base _ => src :: base.regs
  | fload _ _ base => base.regs
  | fstore src _ base => src :: base.regs
  | selectCc cmp _ onTrue onFalse => cmp.regs ++ [onTrue, onFalse]
  | brCc cmp _ => cmp.regs
  | call (.reg r) args _ => args.map .phys ++ [r]
  | call (.symbol _) args _ => args.map .phys
  | ret results => results.map .phys
  | push reg => [.phys reg]
  | _ => []

/-- The registers that assignment may change, in order of appearance. Lists of assigned
registers are no part of it. -/
def regs : Pseudo → List Reg
  | loadImm dst _ | loadAddr dst _ | frameAddr dst _ _ | spAddr dst _ => [dst]
  | copy dst src | aluImm _ dst src _ | unary _ dst src | funary _ _ dst src | ftoi _ dst src
  | itof _ dst src | fconvert _ dst src | floatBits dst src | bitsFloat dst src
  | dynAlloc dst src _ => [dst, src]
  | alu _ dst lhs rhs | mulDiv _ dst lhs rhs | falu _ _ dst lhs rhs => [dst, lhs, rhs]
  | shift _ dst src amount => dst :: src :: amount.regs
  | load dst _ _ base _ => dst :: base.regs
  | store src _ base _ => src :: base.regs
  | fload r _ base | fstore r _ base => r :: base.regs
  | selectCc cmp dst onTrue onFalse => cmp.regs ++ [dst, onTrue, onFalse]
  | brCc cmp _ => cmp.regs
  | call (.reg r) _ _ => [r]
  | _ => []

def mapRegs (g : Reg → Reg) : Pseudo → Pseudo
  | loadImm dst value => loadImm (g dst) value
  | loadAddr dst target => loadAddr (g dst) target
  | frameAddr dst index offset => frameAddr (g dst) index offset
  | spAddr dst offset => spAddr (g dst) offset
  | copy dst src => copy (g dst) (g src)
  | alu op dst lhs rhs => alu op (g dst) (g lhs) (g rhs)
  | aluImm op dst lhs imm => aluImm op (g dst) (g lhs) imm
  | mulDiv op dst lhs rhs => mulDiv op (g dst) (g lhs) (g rhs)
  | shift op dst src amount => shift op (g dst) (g src) (amount.map g)
  | unary op dst src => unary op (g dst) (g src)
  | load dst width ext base offset => load (g dst) width ext (base.map g) offset
  | store src width base offset => store (g src) width (base.map g) offset
  | fload dst prec base => fload (g dst) prec (base.map g)
  | fstore src prec base => fstore (g src) prec (base.map g)
  | falu op prec dst lhs rhs => falu op prec (g dst) (g lhs) (g rhs)
  | funary op prec dst src => funary op prec (g dst) (g src)
  | ftoi prec dst src => ftoi prec (g dst) (g src)
  | itof prec dst src => itof prec (g dst) (g src)
  | fconvert prec dst src => fconvert prec (g dst) (g src)
  | floatBits dst src => floatBits (g dst) (g src)
  | bitsFloat dst src => bitsFloat (g dst) (g src)
  | selectCc cmp dst onTrue onFalse => selectCc (cmp.map g) (g dst) (g onTrue) (g onFalse)
  | dynAlloc dst size align => dynAlloc (g dst) (g size) align
  | call (.reg r) args clobbers => call (.reg (g r)) args clobbers
  | brCc cmp target => brCc (cmp.map g) target
  | m => m

end Pseudo

end DirectPage
