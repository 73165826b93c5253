import DirectPage.Convention
import DirectPage.Instruction
import DirectPage.Double
import DirectPage.Simulator.AddressMap

/-! The state of the simulated machine and its memory. -/
namespace DirectPage

def memorySize : Nat := 0x100000

def codeBase : Nat := 0x1000

def dataBase : Nat := 0x80000

/-- The stack pointer before a call. -/
def stackTop : Word := 0xf0000#32

/-- The return address that ends a run. -/
def returnSentinel : Word := 0xfffffff0#32

def stepLimit : Nat := 1000000

abbrev Memory := AddressMap UInt8 20

/-- Word registers, status flags, float registers and memory; instructions by address; and
the symbols that instructions may name. General registers are part of memory. -/
structure Machine where
  memory : Memory := .uniform 0
  a : Word := 0#32
  x : Word := 0#32
  y : Word := 0#32
  t : Word := 0#32
  sp : Word := stackTop
  pc : Word := 0#32
  flags : Flags := {}
  floats : List Double := List.replicate 16 .zero
  code : AddressMap (Option Instruction) 32 := .uniform none
  symbols : List (String × Word) := []
  /-- Where the next function may start. -/
  nextCode : Nat := codeBase
  /-- Where the next global may start. -/
  nextData : Nat := dataBase

def fault {α : Type} (cause : SimFault) : Checked α := defect (.simulator cause)

def Memory.bytesAt (mem : Memory) (start : Nat) : Nat → List UInt8
  | 0 => []
  | count + 1 => mem.get start :: Memory.bytesAt mem (start + 1) count

def Memory.putAt (mem : Memory) (start : Nat) : List UInt8 → Memory
  | [] => mem
  | b :: rest => Memory.putAt (mem.set start b) (start + 1) rest

namespace Machine

def readBytes (m : Machine) (addr : Word) (count : Nat) : Checked (List UInt8) :=
  if addr.toNat + count ≤ memorySize then .ok (m.memory.bytesAt addr.toNat count)
  else fault (.readOutOfMemory count addr)

def writeBytes (m : Machine) (addr : Word) (bytes : List UInt8) : Checked Machine :=
  if addr.toNat + bytes.length ≤ memorySize then
    .ok { m with memory := m.memory.putAt addr.toNat bytes }
  else fault (.writeOutOfMemory addr)

def readWord (m : Machine) (addr : Word) : Checked Word := do
  match ← m.readBytes addr 4 with
  | [b0, b1, b2, b3] => return Word.ofBytes b0 b1 b2 b3
  | _ => return 0#32

def writeWord (m : Machine) (addr value : Word) : Checked Machine := m.writeBytes addr value.bytes

def slotAddr (slot : UInt8) : Word := BitVec.ofNat 32 slot.toNat

def gprAddr (n : UInt8) : Word := BitVec.ofNat 32 (4 * n.toNat)

def gpr (m : Machine) (n : UInt8) : Word := (m.readWord (gprAddr n)).toOption.getD 0#32

def setGpr (m : Machine) (n : UInt8) (value : Word) : Machine :=
  (m.writeWord (gprAddr n) value).toOption.getD m

/-- The place of a float register; numbers wrap around at sixteen. -/
def floatIndex (n : UInt8) : Nat := n.toNat % 16

def fpr (m : Machine) (n : UInt8) : Double := m.floats.getD (floatIndex n) .zero

def setFpr (m : Machine) (n : UInt8) (value : Double) : Machine :=
  { m with floats := m.floats.set (floatIndex n) value }

def readFloat (m : Machine) (addr : Word) : Precision → Checked Double
  | .single => do return Double.ofSingleBits (← m.readWord addr)
  | .double => do return Double.ofBytes (← m.readBytes addr 8)

def writeFloat (m : Machine) (addr : Word) (prec : Precision) (value : Double) : Checked Machine :=
  m.writeBytes addr (value.bytesIn prec)

def push (m : Machine) (value : Word) : Checked Machine := do
  let m ← m.writeWord m.sp value
  return { m with sp := m.sp - 4#32 }

def pop (m : Machine) : Checked (Word × Machine) := do
  let sp := m.sp + 4#32
  let value ← m.readWord sp
  return (value, { m with sp := sp })

def operand (m : Machine) : Imm → Checked Word
  | .value k => .ok k
  | .symbol s => do
    let base ← orFail (.undefinedSymbol s.name) (m.symbols.lookup s.name)
    return base + s.addend
  | .label l => fault (.unresolvedLabel l)

def defineSymbol (m : Machine) (name : String) (addr : Word) : Machine :=
  { m with symbols := (name, addr) :: m.symbols }

end Machine

end DirectPage
