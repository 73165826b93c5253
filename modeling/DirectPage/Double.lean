import DirectPage.Opcode
import DirectPage.Word

/-! Floating-point numbers as bit patterns.

Patterns keep apart what equality of numbers does not, and moving a value never
changes its bits. Arithmetic goes through `Float`. -/
namespace DirectPage

structure Double where
  bits : UInt64
  deriving DecidableEq, Repr, Inhabited

namespace Double

def zero : Double := ⟨0⟩

def ofFloat (x : Float) : Double := ⟨x.toBits⟩

def toFloat (x : Double) : Float := Float.ofBits x.bits

def isNaN (x : Double) : Bool :=
  x.bits &&& 0x7fffffffffffffff > 0x7ff0000000000000

def neg (x : Double) : Double := ⟨x.bits ^^^ 0x8000000000000000⟩

def abs (x : Double) : Double := ⟨x.bits &&& 0x7fffffffffffffff⟩

def ofSingleBits (w : Word) : Double :=
  ofFloat (Float32.ofBits (UInt32.ofBitVec w)).toFloat

def singleBits (x : Double) : Word := x.toFloat.toFloat32.toBits.toBitVec

def round : Precision → Double → Double
  | .single, x => ofFloat x.toFloat.toFloat32.toFloat
  | .double, x => x

/-- The nearest integer toward zero, held inside the range of a signed word; no number
gives zero. -/
def toWord (x : Double) : Word := x.toFloat.toInt32.toBitVec

def ofWord (w : Word) : Double := ofFloat (Float.ofInt w.toInt)

def bytes (x : Double) : List UInt8 := lowBytes 8 x.bits.toNat

def ofBytes (bs : List UInt8) : Double :=
  ⟨UInt64.ofNat (bs.foldr (fun b acc => b.toNat + 256 * acc) 0)⟩

def bytesIn : Precision → Double → List UInt8
  | .single, x => x.singleBits.bytes
  | .double, x => x.bytes

end Double

end DirectPage
