import DirectPage.Instruction.Encoding
import DirectPage.Simulator.Machine

/-! What each instruction does. -/
namespace DirectPage

namespace Word

def leadingZeros (w : Word) : Word :=
  BitVec.ofNat 32 (((List.range 32).find? w.getMsbD).getD 32)

def trailingZeros (w : Word) : Word :=
  BitVec.ofNat 32 (((List.range 32).find? w.getLsbD).getD 32)

def onesCount (w : Word) : Word := BitVec.ofNat 32 ((List.range 32).countP w.getLsbD)

end Word

def ExtendOp.eval (op : ExtendOp) (w : Word) : Word :=
  match op with
  | sext8 => (w.setWidth 8).signExtend 32
  | sext16 => (w.setWidth 16).signExtend 32
  | zext8 => w &&& 0xff#32
  | zext16 => w &&& 0xffff#32
  | clz => w.leadingZeros
  | ctz => w.trailingZeros
  | popcnt => w.onesCount

/-- The result of a shift; rotations take the count modulo 32. -/
def ShiftOp.eval (op : ShiftOp) (w : Word) (n : Nat) : Word :=
  match op with
  | shl => w <<< n
  | shr => w >>> n
  | sar => w.sshiftRight n
  | rol => w.rotateLeft n
  | ror => w.rotateRight n

/-- Whether a shift takes only counts below 32. -/
def ShiftOp.isBounded : ShiftOp → Bool
  | shl | shr | sar => true
  | rol | ror => false

def mulSigned (a b : Word) : Word × Word :=
  let p := a.signExtend 64 * b.signExtend 64
  (p.setWidth 32, (p >>> 32).setWidth 32)

def mulUnsigned (a b : Word) : Word × Word :=
  let p := a.setWidth 64 * b.setWidth 64
  (p.setWidth 32, (p >>> 32).setWidth 32)

namespace Machine

def setNZ (m : Machine) (value : Word) : Machine :=
  { m with flags.z := value == 0#32, flags.n := value.msb }

def setA (m : Machine) (value : Word) : Machine := { m with a := value }.setNZ value

def setX (m : Machine) (value : Word) : Machine := { m with x := value }.setNZ value

def setY (m : Machine) (value : Word) : Machine := { m with y := value }.setNZ value

def setCarry (m : Machine) (c : Bool) : Machine := { m with flags.c := c }

def adc (m : Machine) (w : Word) : Machine :=
  let carry := m.flags.c.toNat
  let r := m.a + w + BitVec.ofNat 32 carry
  { m with
    a := r
    flags.c := decide (4294967296 ≤ m.a.toNat + w.toNat + carry)
    flags.v := ((m.a ^^^ r) &&& (w ^^^ r)).msb }.setNZ r

def sbc (m : Machine) (w : Word) : Machine := m.adc (~~~w)

def compare (m : Machine) (lhs rhs : Word) : Machine := { m with flags := Flags.compare lhs rhs }

/-- Instructions without operand; the program counter is past the instruction. -/
def implied (m : Machine) (op : Opcode) : Checked Machine :=
  match op with
  | .brk => fault (.brk m.pc)
  | .nop => .ok m
  | .clc => .ok (m.setCarry false)
  | .sec => .ok (m.setCarry true)
  | .clv => .ok { m with flags.v := false }
  | .incA => .ok (m.setA (m.a + 1#32))
  | .decA => .ok (m.setA (m.a - 1#32))
  | .pha => m.push m.a
  | .phx => m.push m.x
  | .phy => m.push m.y
  | .pla => do
    let (w, m) ← m.pop
    return m.setA w
  | .plx => do
    let (w, m) ← m.pop
    return m.setX w
  | .ply => do
    let (w, m) ← m.pop
    return m.setY w
  | .txa => .ok (m.setA m.x)
  | .tax => .ok (m.setX m.a)
  | .tya => .ok (m.setA m.y)
  | .tay => .ok (m.setY m.a)
  | .tsx => .ok (m.setX m.sp)
  | .txs => .ok { m with sp := m.x }
  | .rts => do
    let (w, m) ← m.pop
    return { m with pc := w }
  | op => fault (.unsupported "implied" op.name)

def modifySlot (m : Machine) (addr : Word) (change : Word → Option Bool × Word) :
    Checked Machine := do
  let w ← m.readWord addr
  let (carry, r) := change w
  let m := match carry with
    | some c => m.setCarry c
    | none => m
  return (← m.writeWord addr r).setNZ r

/-- Instructions on a direct-page slot; the program counter is past the instruction. -/
def direct (m : Machine) (op : Opcode) (slot : UInt8) : Checked Machine := do
  let addr := slotAddr slot
  let carry : Word := BitVec.ofNat 32 m.flags.c.toNat
  match op with
  | .ldaDp => return m.setA (← m.readWord addr)
  | .ldxDp => return m.setX (← m.readWord addr)
  | .ldyDp => return m.setY (← m.readWord addr)
  | .staDp => m.writeWord addr m.a
  | .stxDp => m.writeWord addr m.x
  | .styDp => m.writeWord addr m.y
  | .stzDp => m.writeWord addr 0#32
  | .adcDp => return m.adc (← m.readWord addr)
  | .sbcDp => return m.sbc (← m.readWord addr)
  | .andDp => return m.setA (m.a &&& (← m.readWord addr))
  | .oraDp => return m.setA (m.a ||| (← m.readWord addr))
  | .eorDp => return m.setA (m.a ^^^ (← m.readWord addr))
  | .cmpDp => return m.compare m.a (← m.readWord addr)
  | .incDp => m.modifySlot addr fun w => (none, w + 1#32)
  | .decDp => m.modifySlot addr fun w => (none, w - 1#32)
  | .aslDp => m.modifySlot addr fun w => (some w.msb, w <<< 1)
  | .lsrDp => m.modifySlot addr fun w => (some (w.getLsbD 0), w >>> 1)
  | .rolDp => m.modifySlot addr fun w => (some w.msb, w <<< 1 ||| carry)
  | .rorDp => m.modifySlot addr fun w => (some (w.getLsbD 0), w >>> 1 ||| carry <<< 31)
  | .ldaIndY => do
    let ptr ← m.readWord addr
    return m.setA (← m.readWord (ptr + m.y))
  | .ldaInd => do
    let ptr ← m.readWord addr
    return m.setA (← m.readWord ptr)
  | .staIndY => do
    let ptr ← m.readWord addr
    m.writeWord (ptr + m.y) m.a
  | .staInd => do
    let ptr ← m.readWord addr
    m.writeWord ptr m.a
  | .jsrInd => do
    let target ← m.readWord addr
    let m ← m.push m.pc
    return { m with pc := target }
  | op => fault (.unsupported "direct-page" op.name)

def immediate (m : Machine) (op : Opcode) (w : Word) : Checked Machine :=
  match op with
  | .ldaImm => .ok (m.setA w)
  | .ldxImm => .ok (m.setX w)
  | .ldyImm => .ok (m.setY w)
  | .adcImm => .ok (m.adc w)
  | .sbcImm => .ok (m.sbc w)
  | .andImm => .ok (m.setA (m.a &&& w))
  | .oraImm => .ok (m.setA (m.a ||| w))
  | .eorImm => .ok (m.setA (m.a ^^^ w))
  | .cmpImm => .ok (m.compare m.a w)
  | op => fault (.unsupported "immediate" op.name)

/-- Instructions with an address; the program counter is past the instruction. -/
def absolute (m : Machine) (op : Opcode) (addr : Word) : Checked Machine := do
  match op with
  | .ldaAbs => return m.setA (← m.readWord addr)
  | .staAbs => m.writeWord addr m.a
  | .jsr => do
    let m ← m.push m.pc
    return { m with pc := addr }
  | .jmp => return { m with pc := addr }
  | op => fault (.unsupported "absolute" op.name)

def absoluteX (m : Machine) (op : Opcode) (base : UInt16) : Checked Machine := do
  let addr := BitVec.ofNat 32 base.toNat + m.x
  match op with
  | .ldaAbsX => return m.setA (← m.readWord addr)
  | .staAbsX => m.writeWord addr m.a
  | op => fault (.unsupported "absolute,X" op.name)

/-- Arithmetic on a slot; the accumulator and, but for a compare, the flags stay. -/
def regAlu (m : Machine) (op : RegAluOp) (dst : UInt8) (w : Word) : Checked Machine := do
  let addr := slotAddr dst
  let d ← m.readWord addr
  match op with
  | .movr => m.writeWord addr w
  | .addr => m.writeWord addr (d + w)
  | .subr => m.writeWord addr (d - w)
  | .andr => m.writeWord addr (d &&& w)
  | .orar => m.writeWord addr (d ||| w)
  | .eorr => m.writeWord addr (d ^^^ w)
  | .cmpr => return m.compare d w

def shift (m : Machine) (op : ShiftOp) (count dst src : UInt8) : Checked Machine :=
  let n := if count = shiftByA then m.a.toNat % 32 else count.toNat
  if op.isBounded && 32 ≤ n then abort else .ok (m.setGpr dst (op.eval (m.gpr src) n))

def extDirect (m : Machine) (op : ExtOpcode) (slot : UInt8) : Checked Machine := do
  let w ← m.readWord (slotAddr slot)
  match op with
  | .mul =>
    let (lo, hi) := mulSigned m.a w
    return { m with t := hi }.setA lo
  | .mulu =>
    let (lo, hi) := mulUnsigned m.a w
    return { m with t := hi }.setA lo
  | .div =>
    if w = 0#32 then fault .divisionByZero
    return { m with t := m.a.srem w }.setA (m.a.sdiv w)
  | .divu =>
    if w = 0#32 then fault .divisionByZero
    return { m with t := m.a % w }.setA (m.a / w)
  | .ldB => do
    let bytes ← m.readBytes (w + m.y) 1
    return m.setA (BitVec.ofNat 32 (bytes.getD 0 0).toNat)
  | .ldW => do
    let bytes ← m.readBytes (w + m.y) 2
    return m.setA (Word.ofBytes (bytes.getD 0 0) (bytes.getD 1 0) 0 0)
  | .stB => do return (← m.writeBytes (w + m.y) (m.a.bytes.take 1)).setNZ m.a
  | .stW => do return (← m.writeBytes (w + m.y) (m.a.bytes.take 2)).setNZ m.a
  | .tta => fault .ttaOperand

def float (m : Machine) (op : FloatOp) (prec : Precision) (dst src : UInt8) : Machine :=
  let d := (m.fpr dst).toFloat
  let s := m.fpr src
  let rounded (x : Float) : Machine := m.setFpr dst ((Double.ofFloat x).round prec)
  match op with
  | .add => rounded (d + s.toFloat)
  | .sub => rounded (d - s.toFloat)
  | .mul => rounded (d * s.toFloat)
  | .div => rounded (d / s.toFloat)
  | .neg => m.setFpr dst s.neg
  | .abs => m.setFpr dst s.abs
  | .sqrt => rounded s.toFloat.sqrt
  | .mov => m.setFpr dst s
  | .cmp => { m with flags := Flags.floatCompare d s.toFloat }
  | .toInt => m.setA s.toWord
  | .fromInt => m.setFpr dst ((Double.ofWord m.a).round prec)
  | .convert => m.setFpr dst (s.round prec)
  | .toBits => m.setA s.singleBits
  | .fromBits => m.setFpr dst (Double.ofSingleBits m.a)

def floatMem (m : Machine) (op : FloatMemOp) (prec : Precision) (freg : UInt8) (addr : Word) :
    Checked Machine := do
  match op with
  | .load => return m.setFpr freg (← m.readFloat addr prec)
  | .store => m.writeFloat addr prec (m.fpr freg)

def jumpBy (m : Machine) (offset : Word) : Machine := { m with pc := m.pc + offset }

/-- What an instruction does; the program counter is past it already. -/
def exec (m : Machine) : Instruction → Checked Machine
  | .implied op => m.implied op
  | .direct op slot => m.direct op slot
  | .immediate op value => do m.immediate op (← m.operand value)
  | .absolute op addr => do m.absolute op (← m.operand addr)
  | .absoluteX op base => m.absoluteX op base
  | .branch cond offset | .branchLong cond offset =>
    .ok (if cond.taken m.flags then m.jumpBy offset else m)
  | .bra offset | .brl offset => .ok (m.jumpBy offset)
  | .regAlu op dst src => do m.regAlu op dst (← m.readWord (slotAddr src))
  | .regAluImm op dst value => do m.regAlu op dst (← m.operand value)
  | .shift op count dst src => m.shift op count dst src
  | .extend op dst src => .ok (m.setGpr dst (op.eval (m.gpr src)))
  | .extImplied .tta => .ok (m.setA m.t)
  | .extImplied op => fault (.unsupported "extended" op.name)
  | .extDirect op slot => m.extDirect op slot
  | .float op prec dst src => .ok (m.float op prec dst src)
  | .floatMem op prec freg base => m.floatMem op prec freg (m.gpr base)
  | .floatMemAbs op prec freg addr => do m.floatMem op prec freg (← m.operand addr)

def step (m : Machine) : Checked Machine :=
  match m.code.get m.pc.toNat with
  | none => fault (.noInstruction m.pc)
  | some i => { m with pc := m.pc + BitVec.ofNat 32 i.size }.exec i

end Machine

end DirectPage
