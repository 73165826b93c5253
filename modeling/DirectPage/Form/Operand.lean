import DirectPage.Instruction
import DirectPage.Json
import DirectPage.Pseudo.Text
import DirectPage.Text.Number

/-! JSON forms of registers, operands and symbols. -/
namespace DirectPage.Form

def number? (limit : Nat) (cs : List Char) : Option Nat := Text.unsigned? 10 limit cs

/-- A register by its name; numbers past the end of a bank can be written too. -/
def registerNamed? (s : String) : Option Register :=
  match Register.architectural.find? fun p => p.2 == s with
  | some (r, _) => some r
  | none =>
    match s.toList with
    | 'R' :: cs => (number? 256 cs).map fun n => .general (UInt8.ofNat n)
    | 'F' :: cs => (number? 256 cs).map fun n => .float (UInt8.ofNat n)
    | _ => none

def register? (j : Json) : Option Register := j.str?.bind registerNamed?

def registerJson (r : Register) : Json := .str r.text

/-- A register operand: `%` and a number for a virtual one. -/
def reg? (j : Json) : Option Reg :=
  j.str?.bind fun s =>
    match s.toList with
    | '%' :: cs => (number? 4294967296 cs).map .virt
    | _ => (registerNamed? s).map .phys

def regJson (r : Reg) : Json := .str r.text

def className : RegClass → String
  | .gpr => "Gpr"
  | .gprLow => "GprLow"
  | .fpr => "Fpr"

def class? : Json → Option RegClass := Json.named? className [.gpr, .gprLow, .fpr]

def branchCond? : Json → Option BranchCond := Json.named? BranchCond.text BranchCond.all

def branchCondOrNull? : Json → Option (Option BranchCond)
  | .null => some none
  | j => (branchCond? j).map some

def word (w : Word) : Json := .int w.toInt

def unsignedWord (w : Word) : Json := .nat w.toNat

def unsignedWord? (j : Json) : Option Word := j.u32?.map (BitVec.ofNat 32)

def byte (b : UInt8) : Json := .nat b.toNat

def bytes (bs : List UInt8) : Json := .str (Text.hexOfBytes bs)

def bytes? (j : Json) : Option (List UInt8) := j.str?.bind fun s => Text.bytesOfHex? s.toList

/-- A number by its bits, at most `width` hexadecimal digits. -/
def bits? (width : Nat) (j : Json) : Option Nat :=
  j.str?.bind fun s =>
    if s.length ≤ width ∧ s.length ≠ 0 then Text.digits? 16 s.toList else none

def double? (j : Json) : Option Double := (bits? 16 j).map fun n => ⟨UInt64.ofNat n⟩

/-- Sixteen digits; one form for everything that is no number. -/
def double (x : Double) : Json := .str (if x.isNaN then "nan" else Text.fixedHex 16 x.bits.toNat)

def symbol? : Json → Option SymbolRef
  | .arr (.str "sym" :: name :: addend :: _) => do return ⟨← name.str?, ← addend.word?⟩
  | _ => none

def symbol (s : SymbolRef) : Json := .arr [.str "sym", .str s.name, word s.addend]

def imm? : Json → Option Imm
  | .arr (.str "label" :: l :: _) => l.u32?.map .label
  | .arr items => (symbol? (.arr items)).map .symbol
  | j => j.word?.map .value

def imm : Imm → Json
  | .value k => word k
  | .symbol s => symbol s
  | .label l => .arr [.str "label", .nat l]

def pair? {α β : Type} (first : Json → Option α) (second : Json → Option β) : Json → Option (α × β)
  | .arr (a :: b :: _) => do return (← first a, ← second b)
  | _ => none

def flags? : Json → Option Flags
  | .arr (z :: n :: c :: v :: _) => do return ⟨← z.bool?, ← n.bool?, ← c.bool?, ← v.bool?⟩
  | _ => none

def flags (f : Flags) : Json := .arr [.bool f.z, .bool f.n, .bool f.c, .bool f.v]

end DirectPage.Form
