/-! Registers and the classes that constrain operands.

A general register is the word at four times its number in the direct page. -/
namespace DirectPage

/-- A register: a general slot, a register of the processor, or a float register.
Numbers past the end of a bank can be written down but name nothing. -/
inductive Register
  | general (n : UInt8)
  | a | x | y | sp | d | b | vbr | t | sr
  | float (n : UInt8)
  deriving DecidableEq, Repr, Hashable

inductive StorageClass
  | general | architectural | floatingPoint
  deriving DecidableEq, Repr

namespace StorageClass

def name : StorageClass → String
  | general => "General"
  | architectural => "Architectural"
  | floatingPoint => "FloatingPoint"

end StorageClass

/-- Operand constraints: any general register, one of the first sixteen, or a
float register. -/
inductive RegClass
  | gpr | gprLow | fpr
  deriving DecidableEq, Repr

namespace RegClass

def text : RegClass → String
  | gpr => "GPR"
  | gprLow => "GPR_LOW"
  | fpr => "FPR"

end RegClass

namespace Register

def architectural : List (Register × String) :=
  [(a, "A"), (x, "X"), (y, "Y"), (sp, "SP"), (d, "D"), (b, "B"), (vbr, "VBR"), (t, "T"), (sr, "SR")]

def text : Register → String
  | general n => "R" ++ toString n.toNat
  | float n => "F" ++ toString n.toNat
  | a => "A" | x => "X" | y => "Y" | sp => "SP" | d => "D" | b => "B" | vbr => "VBR" | t => "T"
  | sr => "SR"

def storage : Register → StorageClass
  | general _ => .general
  | float _ => .floatingPoint
  | _ => .architectural

def slot? : Register → Option UInt8
  | general n => if n < 64 then some (n * 4) else none
  | _ => none

def index? : Register → Option UInt8
  | general n | float n => some n
  | _ => none

def isValid : Register → Bool
  | general n => n < 64
  | float n => n < 16
  | _ => true

def isGeneral : Register → Bool
  | general _ => true
  | _ => false

def isFloat : Register → Bool
  | float _ => true
  | _ => false

def inClass : Register → RegClass → Bool
  | general n, .gpr => n < 64
  | general n, .gprLow => n < 16
  | float n, .fpr => n < 16
  | _, _ => false

/-- Order in register lists: general registers by number, then the registers of
the processor, then float registers by number. -/
def rank : Register → Nat
  | general n => n.toNat
  | a => 256 | x => 257 | y => 258 | sp => 259 | d => 260 | b => 261 | vbr => 262 | t => 263
  | sr => 264
  | float n => 265 + n.toNat

end Register

def RegClass.members : RegClass → List Register
  | .gpr => (List.range 64).map fun n => .general (UInt8.ofNat n)
  | .gprLow => (List.range 16).map fun n => .general (UInt8.ofNat n)
  | .fpr => (List.range 16).map fun n => .float (UInt8.ofNat n)

def Register.sorted (rs : List Register) : List Register :=
  rs.mergeSort fun r s => r.rank ≤ s.rank

end DirectPage
