import DirectPage.Form.Operand
import DirectPage.Instruction.Pattern

/-! JSON forms of instructions and instruction patterns: arrays that start with the form. -/
namespace DirectPage.Form

def opcode? : Json → Option Opcode := Json.named? Opcode.name Opcode.all

def extOpcode? : Json → Option ExtOpcode := Json.named? ExtOpcode.name ExtOpcode.all

def regAluOp? : Json → Option RegAluOp := Json.named? RegAluOp.name RegAluOp.all

def shiftOp? : Json → Option ShiftOp := Json.named? ShiftOp.name ShiftOp.all

def extendOp? : Json → Option ExtendOp := Json.named? ExtendOp.name ExtendOp.all

def floatOp? : Json → Option FloatOp := Json.named? FloatOp.name FloatOp.all

def floatMemOp? : Json → Option FloatMemOp := Json.named? FloatMemOp.name FloatMemOp.all

def precision? : Json → Option Precision := Json.named? Precision.name Precision.all

def instruction? : Json → Option Instruction
  | .arr (.str "implied" :: op :: _) => do return .implied (← opcode? op)
  | .arr (.str "dp" :: op :: slot :: _) => do return .direct (← opcode? op) (← slot.u8?)
  | .arr (.str "imm" :: op :: value :: _) => do return .immediate (← opcode? op) (← imm? value)
  | .arr (.str "abs" :: op :: addr :: _) => do return .absolute (← opcode? op) (← imm? addr)
  | .arr (.str "absx" :: op :: base :: _) => do
    return .absoluteX (← opcode? op) (UInt16.ofNat (← base.below? 65536))
  | .arr (.str "branch" :: cond :: offset :: _) => do
    return .branch (← branchCond? cond) (← offset.word?)
  | .arr (.str "branchlong" :: cond :: offset :: _) => do
    return .branchLong (← branchCond? cond) (← offset.word?)
  | .arr (.str "bra" :: offset :: _) => do return .bra (← offset.word?)
  | .arr (.str "brl" :: offset :: _) => do return .brl (← offset.word?)
  | .arr (.str "regalu" :: op :: dst :: src :: _) => do
    return .regAlu (← regAluOp? op) (← dst.u8?) (← src.u8?)
  | .arr (.str "regaluimm" :: op :: dst :: value :: _) => do
    return .regAluImm (← regAluOp? op) (← dst.u8?) (← imm? value)
  | .arr (.str "shift" :: op :: count :: dst :: src :: _) => do
    return .shift (← shiftOp? op) (← count.u8?) (← dst.u8?) (← src.u8?)
  | .arr (.str "extend" :: op :: dst :: src :: _) => do
    return .extend (← extendOp? op) (← dst.u8?) (← src.u8?)
  | .arr (.str "ext" :: op :: _) => do return .extImplied (← extOpcode? op)
  | .arr (.str "extdp" :: op :: slot :: _) => do return .extDirect (← extOpcode? op) (← slot.u8?)
  | .arr (.str "float" :: op :: prec :: dst :: src :: _) => do
    return .float (← floatOp? op) (← precision? prec) (← dst.u8?) (← src.u8?)
  | .arr (.str "floatmem" :: op :: prec :: freg :: base :: _) => do
    return .floatMem (← floatMemOp? op) (← precision? prec) (← freg.u8?) (← base.u8?)
  | .arr (.str "floatmemabs" :: op :: prec :: freg :: addr :: _) => do
    return .floatMemAbs (← floatMemOp? op) (← precision? prec) (← freg.u8?) (← imm? addr)
  | _ => none

def instruction : Instruction → Json
  | .implied op => .arr [.str "implied", .str op.name]
  | .direct op slot => .arr [.str "dp", .str op.name, byte slot]
  | .immediate op value => .arr [.str "imm", .str op.name, imm value]
  | .absolute op addr => .arr [.str "abs", .str op.name, imm addr]
  | .absoluteX op base => .arr [.str "absx", .str op.name, .nat base.toNat]
  | .branch cond offset => .arr [.str "branch", .str cond.text, word offset]
  | .branchLong cond offset => .arr [.str "branchlong", .str cond.text, word offset]
  | .bra offset => .arr [.str "bra", word offset]
  | .brl offset => .arr [.str "brl", word offset]
  | .regAlu op dst src => .arr [.str "regalu", .str op.name, byte dst, byte src]
  | .regAluImm op dst value => .arr [.str "regaluimm", .str op.name, byte dst, imm value]
  | .shift op count dst src => .arr [.str "shift", .str op.name, byte count, byte dst, byte src]
  | .extend op dst src => .arr [.str "extend", .str op.name, byte dst, byte src]
  | .extImplied op => .arr [.str "ext", .str op.name]
  | .extDirect op slot => .arr [.str "extdp", .str op.name, byte slot]
  | .float op prec dst src =>
    .arr [.str "float", .str op.name, .str prec.name, byte dst, byte src]
  | .floatMem op prec freg base =>
    .arr [.str "floatmem", .str op.name, .str prec.name, byte freg, byte base]
  | .floatMemAbs op prec freg addr =>
    .arr [.str "floatmemabs", .str op.name, .str prec.name, byte freg, imm addr]

def pat? {α : Type} (read : Json → Option α) : Json → Option (Pat α)
  | .null => some .any
  | j => (read j).map .exact

def pattern? : Json → Option InstructionPattern
  | .arr (.str "any" :: _) => some .any
  | .arr (.str "implied" :: op :: _) => do return .implied (← pat? opcode? op)
  | .arr (.str "dp" :: op :: slot :: _) => do
    return .direct (← pat? opcode? op) (← pat? Json.u8? slot)
  | .arr (.str "imm" :: op :: value :: _) => do
    return .immediate (← pat? opcode? op) (← pat? Json.word? value)
  | .arr (.str "abs" :: op :: name :: _) => do
    return .absoluteSymbol (← pat? opcode? op) (← pat? Json.str? name)
  | .arr (.str "branch" :: cond :: _) => do return .branch (← pat? branchCond? cond)
  | .arr (.str "regalu" :: op :: dst :: src :: _) => do
    return .regAlu (← pat? regAluOp? op) (← pat? Json.u8? dst) (← pat? Json.u8? src)
  | .arr (.str "shift" :: op :: count :: _) => do
    return .shift (← pat? shiftOp? op) (← pat? Json.u8? count)
  | .arr (.str "extend" :: op :: _) => do return .extend (← pat? extendOp? op)
  | .arr (.str "ext" :: op :: _) => do return .ext (← pat? extOpcode? op)
  | .arr (.str "float" :: op :: prec :: _) => do
    return .float (← pat? floatOp? op) (← pat? precision? prec)
  | _ => none

end DirectPage.Form
