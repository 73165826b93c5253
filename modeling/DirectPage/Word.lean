/-! Thirty-two-bit words: range checks, little-endian bytes and hexadecimal text. -/
namespace DirectPage

/-- The machine word. Signed readings go through `BitVec.toInt`. -/
abbrev Word := BitVec 32

namespace Word

def maxSigned : Word := 0x7fffffff#32

def minSigned : Word := 0x80000000#32

def ofSigned? (i : Int) : Option Word :=
  if -2147483648 ≤ i ∧ i ≤ 2147483647 then some (BitVec.ofInt 32 i) else none

def text (w : Word) : String := toString w.toInt

def bytes (w : Word) : List UInt8 :=
  [UInt8.ofNat w.toNat, UInt8.ofNat (w.toNat / 256),
    UInt8.ofNat (w.toNat / 65536), UInt8.ofNat (w.toNat / 16777216)]

def ofBytes (b0 b1 b2 b3 : UInt8) : Word :=
  BitVec.ofNat 32 (b0.toNat + 256 * b1.toNat + 65536 * b2.toNat + 16777216 * b3.toNat)

/-- Sign text in front of an offset: `+4`, `-4`, or nothing for zero. -/
def offsetText (w : Word) : String :=
  if w = 0#32 then "" else if 0 < w.toInt then "+" ++ w.text else w.text

end Word

/-- Lowercase hexadecimal digits behind `0x`. -/
def hexText (n : Nat) : String := "0x" ++ String.ofList (Nat.toDigits 16 n)

def lowBytes : Nat → Int → List UInt8
  | 0, _ => []
  | count + 1, value => UInt8.ofNat (value % 256).toNat :: lowBytes count (value / 256)

/-- The least multiple of `align` that is not below `n`. -/
def alignUp (n align : Nat) : Nat := (n + align - 1) / align * align

/-- Powers of two among the natural numbers. -/
def isPowerOfTwo (n : Nat) : Bool := n != 0 && n &&& (n - 1) == 0

end DirectPage
