import DirectPage.Instruction

/-! Instructions as bytes. -/
namespace DirectPage

/-- The bytes of a 32-bit operand; symbols and labels leave zeros to be patched. -/
def Imm.encode : Imm → List UInt8
  | value k => k.bytes
  | symbol _ | label _ => [0, 0, 0, 0]

def lowHalf (w : Word) : List UInt8 := [UInt8.ofNat w.toNat, UInt8.ofNat (w.toNat / 256)]

def packNibbles (hi lo : UInt8) : UInt8 := ((hi &&& 0x0f) <<< 4) ||| (lo &&& 0x0f)

namespace Instruction

def encode : Instruction → List UInt8
  | implied op => [op.byte]
  | direct op slot => [op.byte, slot]
  | immediate op value => widePrefix :: op.byte :: value.encode
  | absolute op addr => widePrefix :: op.byte :: addr.encode
  | absoluteX op base => [op.byte, base.toUInt8, (base >>> 8).toUInt8]
  | branch cond offset => [cond.opcode.byte, UInt8.ofNat offset.toNat]
  | branchLong cond offset => cond.invert.opcode.byte :: 3 :: Opcode.brl.byte :: lowHalf offset
  | bra offset => [Opcode.bra.byte, UInt8.ofNat offset.toNat]
  | brl offset => Opcode.brl.byte :: lowHalf offset
  | regAlu op dst src => [extendedPrefix, registerGroup, op.byte, dst, src]
  | regAluImm op dst value =>
    extendedPrefix :: registerGroup :: op.immediateByte :: dst :: value.encode
  | shift op count dst src =>
    [extendedPrefix, shifterGroup, op.byte ||| (count &&& 0x1f), dst &&& 0x3f, src &&& 0x3f]
  | extend op dst src => [extendedPrefix, extendGroup, op.byte, dst &&& 0x3f, src &&& 0x3f]
  | extImplied op => [extendedPrefix, op.byte]
  | extDirect op slot => [extendedPrefix, op.byte, slot]
  | float op prec dst src => [extendedPrefix, op.byte prec, packNibbles dst src]
  | floatMem op prec freg base => [extendedPrefix, op.byte prec, packNibbles freg base]
  | floatMemAbs op prec freg addr =>
    extendedPrefix :: op.absoluteByte prec :: (freg &&& 0x0f) :: addr.encode

def size : Instruction → Nat
  | implied _ => 1
  | direct .. | branch .. | bra _ | extImplied _ => 2
  | absoluteX .. | brl _ | extDirect .. | float .. | floatMem .. => 3
  | branchLong .. | regAlu .. | shift .. | extend .. => 5
  | immediate .. | absolute .. => 6
  | floatMemAbs .. => 7
  | regAluImm .. => 8

end Instruction

end DirectPage
