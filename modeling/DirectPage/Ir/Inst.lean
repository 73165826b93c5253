import DirectPage.Condition
import DirectPage.Double
import DirectPage.Error

/-! Instructions and terminators over values. -/
namespace DirectPage.Ir

inductive Operand
  | value (v : Value)
  | imm (k : Word)
  deriving DecidableEq, Repr

def Operand.values : Operand → List Value
  | value v => [v]
  | imm _ => []

inductive BinOp
  | add | sub | mul | sdiv | udiv | srem | urem | mulHs | mulHu | and | or | xor | shl | lshr | ashr
  | rotl | rotr
  deriving DecidableEq, Repr

namespace BinOp

def text : BinOp → String
  | add => "add" | sub => "sub" | mul => "mul" | sdiv => "sdiv" | udiv => "udiv" | srem => "srem"
  | urem => "urem" | mulHs => "mulhs" | mulHu => "mulhu" | and => "and" | or => "or" | xor => "xor"
  | shl => "shl" | lshr => "lshr" | ashr => "ashr" | rotl => "rotl" | rotr => "rotr"

def name : BinOp → String
  | add => "Add" | sub => "Sub" | mul => "Mul" | sdiv => "SDiv" | udiv => "UDiv" | srem => "SRem"
  | urem => "URem" | mulHs => "MulHs" | mulHu => "MulHu" | and => "And" | or => "Or" | xor => "Xor"
  | shl => "Shl" | lshr => "LShr" | ashr => "AShr" | rotl => "Rotl" | rotr => "Rotr"

def all : List BinOp :=
  [add, sub, mul, sdiv, udiv, srem, urem, mulHs, mulHu, and, or, xor, shl, lshr, ashr, rotl, rotr]

end BinOp

inductive UnOp
  | neg | not | clz | ctz | popcnt | sext8 | sext16 | zext8 | zext16
  deriving DecidableEq, Repr

namespace UnOp

def text : UnOp → String
  | neg => "neg" | not => "not" | clz => "clz" | ctz => "ctz" | popcnt => "popcnt"
  | sext8 => "sext8" | sext16 => "sext16" | zext8 => "zext8" | zext16 => "zext16"

def name : UnOp → String
  | neg => "Neg" | not => "Not" | clz => "Clz" | ctz => "Ctz" | popcnt => "Popcnt"
  | sext8 => "SextInReg8" | sext16 => "SextInReg16" | zext8 => "ZextInReg8"
  | zext16 => "ZextInReg16"

def key : UnOp → String
  | neg => "neg" | not => "not" | clz => "clz" | ctz => "ctz" | popcnt => "popcnt"
  | sext8 => "sextinreg8" | sext16 => "sextinreg16" | zext8 => "zextinreg8"
  | zext16 => "zextinreg16"

def all : List UnOp := [neg, not, clz, ctz, popcnt, sext8, sext16, zext8, zext16]

end UnOp

inductive FBinOp
  | add | sub | mul | div | rem
  deriving DecidableEq, Repr

namespace FBinOp

def text : FBinOp → String
  | add => "add" | sub => "sub" | mul => "mul" | div => "div" | rem => "rem"

def name : FBinOp → String
  | add => "Add" | sub => "Sub" | mul => "Mul" | div => "Div" | rem => "Rem"

def all : List FBinOp := [add, sub, mul, div, rem]

end FBinOp

inductive FUnOp
  | neg | abs | sqrt
  deriving DecidableEq, Repr

namespace FUnOp

def text : FUnOp → String
  | neg => "neg" | abs => "abs" | sqrt => "sqrt"

def name : FUnOp → String
  | neg => "Neg" | abs => "Abs" | sqrt => "Sqrt"

def all : List FUnOp := [neg, abs, sqrt]

end FUnOp

inductive ConvOp
  | fpToSi | siToFp | fpToUi | uiToFp | fpExt | fpTrunc | bitcast
  deriving DecidableEq, Repr

namespace ConvOp

def text : ConvOp → String
  | fpToSi => "fptosi" | siToFp => "sitofp" | fpToUi => "fptoui" | uiToFp => "uitofp"
  | fpExt => "fpext" | fpTrunc => "fptrunc" | bitcast => "bitcast"

def name : ConvOp → String
  | fpToSi => "FpToSi" | siToFp => "SiToFp" | fpToUi => "FpToUi" | uiToFp => "UiToFp"
  | fpExt => "FpExt" | fpTrunc => "FpTrunc" | bitcast => "Bitcast"

def all : List ConvOp := [fpToSi, siToFp, fpToUi, uiToFp, fpExt, fpTrunc, bitcast]

end ConvOp

inductive ShiftPartsOp
  | shl | lshr | ashr
  deriving DecidableEq, Repr

namespace ShiftPartsOp

def text : ShiftPartsOp → String
  | shl => "shl_parts" | lshr => "srl_parts" | ashr => "sra_parts"

def key : ShiftPartsOp → String
  | shl => "shl" | lshr => "lshr" | ashr => "ashr"

def all : List ShiftPartsOp := [shl, lshr, ashr]

end ShiftPartsOp

/-- How a narrow load fills a word. -/
inductive Extension
  | zero | sign
  deriving DecidableEq, Repr

namespace Extension

def name : Extension → String
  | zero => "Zero" | sign => "Sign"

def key : Extension → String
  | zero => "zero" | sign => "sign"

def all : List Extension := [zero, sign]

end Extension

inductive AddrBase
  | value (v : Value)
  | slot (s : SlotId)
  | global (s : SymbolRef)
  deriving DecidableEq, Repr

structure Address where
  base : AddrBase
  offset : Word := 0#32
  deriving DecidableEq, Repr

def Address.values (a : Address) : List Value :=
  match a.base with
  | .value v => [v]
  | _ => []

inductive Callee
  | direct (name : String)
  | indirect (v : Value)
  deriving DecidableEq, Repr

def Callee.values : Callee → List Value
  | direct _ => []
  | indirect v => [v]

inductive Inst
  | const (dst : Value) (value : Word)
  | fconst (dst : Value) (value : Double)
  | copy (dst src : Value)
  | binary (op : BinOp) (dst lhs : Value) (rhs : Operand)
  | unary (op : UnOp) (dst src : Value)
  | fbinary (op : FBinOp) (dst lhs rhs : Value)
  | funary (op : FUnOp) (dst src : Value)
  | convert (op : ConvOp) (dst src : Value)
  | setCc (cc : CondCode) (dst lhs : Value) (rhs : Operand)
  | fsetCc (cc : FloatCond) (dst lhs rhs : Value)
  | select (dst cond onTrue onFalse : Value)
  | selectCc (cc : CondCode) (dst lhs : Value) (rhs : Operand) (onTrue onFalse : Value)
  | fselectCc (cc : FloatCond) (dst lhs rhs onTrue onFalse : Value)
  | shiftParts (op : ShiftPartsOp) (dstLo dstHi lo hi : Value) (amount : Operand)
  | load (dst : Value) (ty : Ty) (ext : Extension) (addr : Address)
  | store (src : Value) (ty : Ty) (addr : Address)
  | globalAddr (dst : Value) (symbol : SymbolRef)
  | externalSymbol (dst : Value) (name : String)
  | blockAddr (dst : Value) (block : BlockId)
  | slotAddr (dst : Value) (slot : SlotId)
  | frameAddr (dst : Value) (depth : Nat)
  | returnAddr (dst : Value) (depth : Nat)
  | dynAlloca (dst size : Value) (align : Nat)
  | vaStart (list : Value)
  | call (callee : Callee) (args : List Value) (numFixed : Option Nat) (results : List Value)
  deriving DecidableEq, Repr

namespace Inst

def defs : Inst → List Value
  | const dst _ | fconst dst _ | copy dst _ | binary _ dst _ _ | unary _ dst _ | fbinary _ dst _ _
  | funary _ dst _ | convert _ dst _ | setCc _ dst _ _ | fsetCc _ dst _ _ | select dst _ _ _
  | selectCc _ dst _ _ _ _ | fselectCc _ dst _ _ _ _ | load dst _ _ _ | globalAddr dst _
  | externalSymbol dst _ | blockAddr dst _ | slotAddr dst _ | frameAddr dst _ | returnAddr dst _
  | dynAlloca dst _ _ => [dst]
  | shiftParts _ dstLo dstHi _ _ _ => [dstLo, dstHi]
  | call _ _ _ results => results
  | store .. | vaStart _ => []

def uses : Inst → List Value
  | const .. | fconst .. | globalAddr .. | externalSymbol .. | blockAddr .. | slotAddr ..
  | frameAddr .. | returnAddr .. => []
  | copy _ src | unary _ _ src | funary _ _ src | convert _ _ src => [src]
  | binary _ _ lhs rhs | setCc _ _ lhs rhs => lhs :: rhs.values
  | fbinary _ _ lhs rhs | fsetCc _ _ lhs rhs => [lhs, rhs]
  | select _ cond onTrue onFalse => [cond, onTrue, onFalse]
  | selectCc _ _ lhs rhs onTrue onFalse => lhs :: rhs.values ++ [onTrue, onFalse]
  | fselectCc _ _ lhs rhs onTrue onFalse => [lhs, rhs, onTrue, onFalse]
  | shiftParts _ _ _ lo hi amount => lo :: hi :: amount.values
  | load _ _ _ addr => addr.values
  | store src _ addr => src :: addr.values
  | dynAlloca _ size _ => [size]
  | vaStart list => [list]
  | call callee args _ _ => args ++ callee.values

def isCall : Inst → Bool
  | call .. => true
  | _ => false

end Inst

inductive Terminator
  | jump (target : BlockId)
  | branch (cond : Value) (thenBlock elseBlock : BlockId)
  | branchCc (cc : CondCode) (lhs : Value) (rhs : Operand) (thenBlock elseBlock : BlockId)
  | fbranchCc (cc : FloatCond) (lhs rhs : Value) (thenBlock elseBlock : BlockId)
  | ret (values : List Value)
  | unreachable
  deriving DecidableEq, Repr

namespace Terminator

def successors : Terminator → List BlockId
  | jump target => [target]
  | branch _ t e | branchCc _ _ _ t e | fbranchCc _ _ _ t e => [t, e]
  | ret _ | unreachable => []

def uses : Terminator → List Value
  | branch cond _ _ => [cond]
  | branchCc _ lhs rhs _ _ => lhs :: rhs.values
  | fbranchCc _ lhs rhs _ _ => [lhs, rhs]
  | ret values => values
  | jump _ | unreachable => []

end Terminator

end DirectPage.Ir
