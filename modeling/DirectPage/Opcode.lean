/-! The instruction set: opcode bytes of every group, by name. -/
namespace DirectPage

inductive Opcode
  | brk | oraDp | aslDp | oraImm | aslA | bpl | clc | incA | jsr | andDp | rolDp | andImm | rolA
  | bmi | sec | decA | eorDp | lsrDp | pha | eorImm | lsrA | jmp | bvc | phy | rts | stzDp | adcDp
  | rorDp | pla | adcImm | rorA | bvs | ply | bra | brl | styDp | staDp | stxDp | txa | staAbs | bcc
  | staIndY | staInd | tya | txs | staAbsX | ldyImm | ldxImm | ldyDp | ldaDp | ldxDp | tay | ldaImm
  | tax | ldaAbs | bcs | ldaIndY | ldaInd | clv | tsx | ldaAbsX | cmpDp | decDp | cmpImm | bne | phx
  | sbcDp | incDp | sbcImm | nop | beq | plx | jsrInd
  deriving DecidableEq, Repr

namespace Opcode

def byte : Opcode → UInt8
  | brk => 0x00 | oraDp => 0x05 | aslDp => 0x06 | oraImm => 0x09 | aslA => 0x0a | bpl => 0x10
  | clc => 0x18 | incA => 0x1a | jsr => 0x20 | andDp => 0x25 | rolDp => 0x26 | andImm => 0x29
  | rolA => 0x2a | bmi => 0x30 | sec => 0x38 | decA => 0x3a | eorDp => 0x45 | lsrDp => 0x46
  | pha => 0x48 | eorImm => 0x49 | lsrA => 0x4a | jmp => 0x4c | bvc => 0x50 | phy => 0x5a
  | rts => 0x60 | stzDp => 0x64 | adcDp => 0x65 | rorDp => 0x66 | pla => 0x68 | adcImm => 0x69
  | rorA => 0x6a | bvs => 0x70 | ply => 0x7a | bra => 0x80 | brl => 0x82 | styDp => 0x84
  | staDp => 0x85 | stxDp => 0x86 | txa => 0x8a | staAbs => 0x8d | bcc => 0x90 | staIndY => 0x91
  | staInd => 0x92 | tya => 0x98 | txs => 0x9a | staAbsX => 0x9d | ldyImm => 0xa0 | ldxImm => 0xa2
  | ldyDp => 0xa4 | ldaDp => 0xa5 | ldxDp => 0xa6 | tay => 0xa8 | ldaImm => 0xa9 | tax => 0xaa
  | ldaAbs => 0xad | bcs => 0xb0 | ldaIndY => 0xb1 | ldaInd => 0xb2 | clv => 0xb8 | tsx => 0xba
  | ldaAbsX => 0xbd | cmpDp => 0xc5 | decDp => 0xc6 | cmpImm => 0xc9 | bne => 0xd0 | phx => 0xda
  | sbcDp => 0xe5 | incDp => 0xe6 | sbcImm => 0xe9 | nop => 0xea | beq => 0xf0 | plx => 0xfa
  | jsrInd => 0xfc

def name : Opcode → String
  | brk => "Brk" | oraDp => "OraDp" | aslDp => "AslDp" | oraImm => "OraImm" | aslA => "AslA"
  | bpl => "Bpl" | clc => "Clc" | incA => "IncA" | jsr => "Jsr" | andDp => "AndDp"
  | rolDp => "RolDp" | andImm => "AndImm" | rolA => "RolA" | bmi => "Bmi" | sec => "Sec"
  | decA => "DecA" | eorDp => "EorDp" | lsrDp => "LsrDp" | pha => "Pha" | eorImm => "EorImm"
  | lsrA => "LsrA" | jmp => "Jmp" | bvc => "Bvc" | phy => "Phy" | rts => "Rts" | stzDp => "StzDp"
  | adcDp => "AdcDp" | rorDp => "RorDp" | pla => "Pla" | adcImm => "AdcImm" | rorA => "RorA"
  | bvs => "Bvs" | ply => "Ply" | bra => "Bra" | brl => "Brl" | styDp => "StyDp"
  | staDp => "StaDp" | stxDp => "StxDp" | txa => "Txa" | staAbs => "StaAbs" | bcc => "Bcc"
  | staIndY => "StaIndY" | staInd => "StaInd" | tya => "Tya" | txs => "Txs" | staAbsX => "StaAbsX"
  | ldyImm => "LdyImm" | ldxImm => "LdxImm" | ldyDp => "LdyDp" | ldaDp => "LdaDp"
  | ldxDp => "LdxDp" | tay => "Tay" | ldaImm => "LdaImm" | tax => "Tax" | ldaAbs => "LdaAbs"
  | bcs => "Bcs" | ldaIndY => "LdaIndY" | ldaInd => "LdaInd" | clv => "Clv" | tsx => "Tsx"
  | ldaAbsX => "LdaAbsX" | cmpDp => "CmpDp" | decDp => "DecDp" | cmpImm => "CmpImm" | bne => "Bne"
  | phx => "Phx" | sbcDp => "SbcDp" | incDp => "IncDp" | sbcImm => "SbcImm" | nop => "Nop"
  | beq => "Beq" | plx => "Plx" | jsrInd => "JsrInd"

def all : List Opcode :=
  [brk, oraDp, aslDp, oraImm, aslA, bpl, clc, incA, jsr, andDp, rolDp, andImm, rolA, bmi, sec, decA,
    eorDp, lsrDp, pha, eorImm, lsrA, jmp, bvc, phy, rts, stzDp, adcDp, rorDp, pla, adcImm, rorA,
    bvs, ply, bra, brl, styDp, staDp, stxDp, txa, staAbs, bcc, staIndY, staInd, tya, txs, staAbsX,
    ldyImm, ldxImm, ldyDp, ldaDp, ldxDp, tay, ldaImm, tax, ldaAbs, bcs, ldaIndY, ldaInd, clv, tsx,
    ldaAbsX, cmpDp, decDp, cmpImm, bne, phx, sbcDp, incDp, sbcImm, nop, beq, plx, jsrInd]

def isTerminating : Opcode → Bool
  | brk | rts | jmp | bra | brl | beq | bne | bcs | bcc | bmi | bpl | bvs | bvc => true
  | _ => false

end Opcode

def widePrefix : UInt8 := 0x42

def extendedPrefix : UInt8 := 0x02

def registerGroup : UInt8 := 0xe8

def shifterGroup : UInt8 := 0xe9

def extendGroup : UInt8 := 0xea

inductive ExtOpcode
  | mul | mulu | div | divu | tta | ldB | ldW | stB | stW
  deriving DecidableEq, Repr

namespace ExtOpcode

def byte : ExtOpcode → UInt8
  | mul => 0x00 | mulu => 0x01 | div => 0x02 | divu => 0x03 | tta => 0x9a
  | ldB => 0xb1 | ldW => 0xb3 | stB => 0x91 | stW => 0x93

def name : ExtOpcode → String
  | mul => "Mul" | mulu => "Mulu" | div => "Div" | divu => "Divu" | tta => "Tta"
  | ldB => "LdB" | ldW => "LdW" | stB => "StB" | stW => "StW"

def all : List ExtOpcode := [mul, mulu, div, divu, tta, ldB, ldW, stB, stW]

end ExtOpcode

/-- Operations between two direct-page slots, or a slot and a constant. Only
the compare touches the flags. -/
inductive RegAluOp
  | movr | addr | subr | andr | orar | eorr | cmpr
  deriving DecidableEq, Repr

namespace RegAluOp

def byte : RegAluOp → UInt8
  | movr => 0x01 | addr => 0x11 | subr => 0x21 | andr => 0x31 | orar => 0x41 | eorr => 0x51
  | cmpr => 0x61

/-- The byte of the form whose source is a constant. -/
def immediateByte : RegAluOp → UInt8
  | movr => 0x02 | addr => 0x12 | subr => 0x22 | andr => 0x32 | orar => 0x42 | eorr => 0x52
  | cmpr => 0x62

def name : RegAluOp → String
  | movr => "Movr" | addr => "Addr" | subr => "Subr" | andr => "Andr" | orar => "Orar"
  | eorr => "Eorr" | cmpr => "Cmpr"

def all : List RegAluOp := [movr, addr, subr, andr, orar, eorr, cmpr]

end RegAluOp

/-- Shifter operations; the low five bits of the byte hold the count. -/
inductive ShiftOp
  | shl | shr | sar | rol | ror
  deriving DecidableEq, Repr

namespace ShiftOp

def byte : ShiftOp → UInt8
  | shl => 0x00 | shr => 0x20 | sar => 0x40 | rol => 0x60 | ror => 0x80

def name : ShiftOp → String
  | shl => "Shl" | shr => "Shr" | sar => "Sar" | rol => "Rol" | ror => "Ror"

def all : List ShiftOp := [shl, shr, sar, rol, ror]

end ShiftOp

/-- The count field that takes the count from the accumulator. -/
def shiftByA : UInt8 := 0x1f

inductive ExtendOp
  | sext8 | sext16 | zext8 | zext16 | clz | ctz | popcnt
  deriving DecidableEq, Repr

namespace ExtendOp

def byte : ExtendOp → UInt8
  | sext8 => 0x00 | sext16 => 0x01 | zext8 => 0x02 | zext16 => 0x03 | clz => 0x04 | ctz => 0x05
  | popcnt => 0x06

def name : ExtendOp → String
  | sext8 => "Sext8" | sext16 => "Sext16" | zext8 => "Zext8" | zext16 => "Zext16" | clz => "Clz"
  | ctz => "Ctz" | popcnt => "Popcnt"

def all : List ExtendOp := [sext8, sext16, zext8, zext16, clz, ctz, popcnt]

end ExtendOp

inductive Precision
  | single | double
  deriving DecidableEq, Repr

namespace Precision

def bytes : Precision → Nat
  | single => 4
  | double => 8

def name : Precision → String
  | single => "Single"
  | double => "Double"

def all : List Precision := [single, double]

end Precision

/-- Two-register float operations; arithmetic overwrites its left operand. -/
inductive FloatOp
  | add | sub | mul | div | neg | abs | sqrt | mov | cmp | toInt | fromInt | convert | toBits
  | fromBits
  deriving DecidableEq, Repr

namespace FloatOp

def code : FloatOp → UInt8
  | add => 0x0 | sub => 0x1 | mul => 0x2 | div => 0x3 | neg => 0x4 | abs => 0x5 | sqrt => 0x6
  | mov => 0x7 | cmp => 0x8 | toInt => 0x9 | fromInt => 0xa | convert => 0xb | toBits => 0xc
  | fromBits => 0xd

def byte (op : FloatOp) : Precision → UInt8
  | .single => 0xc0 + op.code
  | .double => 0xd0 + op.code

def name : FloatOp → String
  | add => "Add" | sub => "Sub" | mul => "Mul" | div => "Div" | neg => "Neg" | abs => "Abs"
  | sqrt => "Sqrt" | mov => "Mov" | cmp => "Cmp" | toInt => "ToInt" | fromInt => "FromInt"
  | convert => "Convert" | toBits => "ToBits" | fromBits => "FromBits"

def all : List FloatOp :=
  [add, sub, mul, div, neg, abs, sqrt, mov, cmp, toInt, fromInt, convert, toBits, fromBits]

def writesFloat : FloatOp → Bool
  | cmp | toInt | toBits => false
  | _ => true

end FloatOp

inductive FloatMemOp
  | load | store
  deriving DecidableEq, Repr

namespace FloatMemOp

def byte : FloatMemOp → Precision → UInt8
  | load, .single => 0xb4 | load, .double => 0xb5 | store, .single => 0xb6 | store, .double => 0xb7

def absoluteByte (op : FloatMemOp) (p : Precision) : UInt8 := op.byte p + 4

def name : FloatMemOp → String
  | load => "Load"
  | store => "Store"

def all : List FloatMemOp := [load, store]

end FloatMemOp

end DirectPage
