import DirectPage.Pseudo

/-! Pseudo-operations as listings show them. -/
namespace DirectPage

def Reg.text : Reg → String
  | virt v => "%" ++ toString v
  | phys r => r.text

namespace AluOp

def name : AluOp → String
  | add => "Add" | sub => "Sub" | and => "And" | or => "Or" | xor => "Xor"

def all : List AluOp := [add, sub, and, or, xor]

end AluOp

namespace MulDivOp

def name : MulDivOp → String
  | mul => "Mul" | mulHs => "MulHs" | mulHu => "MulHu" | sdiv => "SDiv" | udiv => "UDiv"
  | srem => "SRem" | urem => "URem"

def all : List MulDivOp := [mul, mulHs, mulHu, sdiv, udiv, srem, urem]

end MulDivOp

namespace ShiftKind

def name : ShiftKind → String
  | shl => "Shl" | lshr => "LShr" | ashr => "AShr" | rotl => "Rotl" | rotr => "Rotr"

def all : List ShiftKind := [shl, lshr, ashr, rotl, rotr]

end ShiftKind

namespace UnaryOp

def name : UnaryOp → String
  | neg => "Neg" | not => "Not" | sext8 => "Sext8" | sext16 => "Sext16" | zext8 => "Zext8"
  | zext16 => "Zext16" | clz => "Clz" | ctz => "Ctz" | popcnt => "Popcnt"

def all : List UnaryOp := [neg, not, sext8, sext16, zext8, zext16, clz, ctz, popcnt]

end UnaryOp

namespace FAluOp

def name : FAluOp → String
  | add => "Add" | sub => "Sub" | mul => "Mul" | div => "Div"

def all : List FAluOp := [add, sub, mul, div]

end FAluOp

namespace FUnaryOp

def name : FUnaryOp → String
  | neg => "Neg" | abs => "Abs" | sqrt => "Sqrt"

def all : List FUnaryOp := [neg, abs, sqrt]

end FUnaryOp

namespace Width

def name : Width → String
  | byte => "Byte" | half => "Half" | word => "Word"

def all : List Width := [byte, half, word]

end Width

def ShiftAmount.text : ShiftAmount → String
  | imm n => "#" ++ toString n.toNat
  | reg r => r.text

def MemBase.text : MemBase → String
  | reg r => r.text
  | frame index => "fi#" ++ toString index
  | sp => "SP"
  | symbol s => "@" ++ s.text

def FMemBase.text : FMemBase → String
  | reg r => "(" ++ r.text ++ ")"
  | symbol s => "@" ++ s.text

def AddrTarget.text : AddrTarget → String
  | symbol s => "@" ++ s.text
  | block b => Ir.blockText b
  | pool i => "cp#" ++ toString i

def Compare.text : Compare → String
  | int cc lhs (.reg r) => cc.text ++ " " ++ lhs.text ++ ", " ++ r.text
  | int cc lhs (.imm k) => cc.text ++ " " ++ lhs.text ++ ", #" ++ k.text
  | float cc _ lhs rhs => cc.text ++ " " ++ lhs.text ++ ", " ++ rhs.text

def CallTarget.text : CallTarget → String
  | symbol name => "@" ++ name
  | reg r => "(" ++ r.text ++ ")"

namespace Pseudo

def line (mnemonic : String) (operands : List String) : String :=
  mnemonic ++ " " ++ ", ".intercalate operands

def memoryText (base : MemBase) (offset : Word) : String :=
  "[" ++ base.text ++ "+" ++ offset.text ++ "]"

def text : Pseudo → String
  | loadImm dst value => line "LI" [dst.text, "#" ++ value.text]
  | loadAddr dst target => line "LA" [dst.text, target.text]
  | frameAddr dst index offset =>
    line "LEA_FI" [dst.text, "fi#" ++ toString index ++ "+" ++ offset.text]
  | spAddr dst offset => line "LEA_SP" [dst.text, offset.text]
  | copy dst src => line "COPY" [dst.text, src.text]
  | alu op dst lhs rhs => line op.name [dst.text, lhs.text, rhs.text]
  | aluImm op dst lhs imm => line (op.name ++ "I") [dst.text, lhs.text, "#" ++ imm.text]
  | mulDiv op dst lhs rhs => line op.name [dst.text, lhs.text, rhs.text]
  | shift op dst src amount => line op.name [dst.text, src.text, amount.text]
  | unary op dst src => line op.name [dst.text, src.text]
  | load dst width ext base offset =>
    line ("LOAD." ++ width.name ++ "." ++ ext.name) [dst.text, memoryText base offset]
  | store src width base offset =>
    line ("STORE." ++ width.name) [src.text, memoryText base offset]
  | fload dst prec base => line ("LDF." ++ prec.name) [dst.text, base.text]
  | fstore src prec base => line ("STF." ++ prec.name) [src.text, base.text]
  | falu op prec dst lhs rhs =>
    line ("F" ++ op.name ++ "." ++ prec.name) [dst.text, lhs.text, rhs.text]
  | funary op prec dst src => line ("F" ++ op.name ++ "." ++ prec.name) [dst.text, src.text]
  | ftoi prec dst src => line ("F2I." ++ prec.name) [dst.text, src.text]
  | itof prec dst src => line ("I2F." ++ prec.name) [dst.text, src.text]
  | fconvert prec dst src => line ("FCVT." ++ prec.name) [dst.text, src.text]
  | floatBits dst src => line "FTOA" [dst.text, src.text]
  | bitsFloat dst src => line "ATOF" [dst.text, src.text]
  | selectCc cmp dst onTrue onFalse =>
    line "SELECT_CC" [dst.text, cmp.text, onTrue.text, onFalse.text]
  | dynAlloc dst size align => line "DYNALLOC" [dst.text, size.text, "align " ++ toString align]
  | callStackDown size => "ADJCALLSTACKDOWN " ++ toString size
  | callStackUp size => "ADJCALLSTACKUP " ++ toString size
  | call target _ _ => "CALL " ++ target.text
  | brCc cmp target => line "BR_CC" [cmp.text, Ir.blockText target]
  | jump target => "JUMP " ++ Ir.blockText target
  | ret _ => "RET"
  | trap => "TRAP"
  | push reg => "PUSH " ++ reg.text
  | pop reg => "POP " ++ reg.text
  | spAdjust delta => "SP += " ++ delta.text
  | setFrameBase => "SET_FRAME_BASE"
  | restoreSp => "RESTORE_SP"

end Pseudo

end DirectPage
