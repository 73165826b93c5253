import DirectPage.Instruction.Encoding
import DirectPage.Relocation

/-! Encoded functions, sections of functions, and linking. -/
namespace DirectPage

structure EncodedFunction where
  name : String
  code : List UInt8
  instructions : List Instruction
  /-- Fields that hold symbols. -/
  fixups : List Fixup
  /-- Bytes of stack below the saved registers. -/
  stackSize : Nat
  deriving Repr

structure Symbol where
  name : String
  offset : Nat
  size : Nat
  deriving DecidableEq, Repr

structure Object where
  code : List UInt8 := []
  symbols : List Symbol := []
  relocations : List Relocation := []
  deriving DecidableEq, Repr

namespace Object

def symbol? (o : Object) (name : String) : Option Symbol := o.symbols.find? (·.name == name)

def padding (length : Nat) : List UInt8 :=
  List.replicate (alignUp length 4 - length) Opcode.nop.byte

def push (o : Object) (f : EncodedFunction) : Checked Object := do
  if (o.symbol? f.name).isSome then fail (.invalidInput (.duplicateSymbol f.name))
  let base := alignUp o.code.length 4
  let relocations ← f.fixups.mapM (·.relocationAt base)
  return {
    code := o.code ++ padding o.code.length ++ f.code
    symbols := o.symbols ++ [⟨f.name, base, f.code.length⟩]
    relocations := o.relocations ++ relocations }

/-- Address of a symbol with the section at `base`: a function of the section before an
external. -/
def address (o : Object) (base : Word) (externals : List (String × Word)) (name : String) :
    Checked Word :=
  match o.symbol? name with
  | some sym =>
    if 4294967296 ≤ sym.offset then defect (.symbolOffset sym.name)
    else if base.toNat + sym.offset < 4294967296 then .ok (base + BitVec.ofNat 32 sym.offset)
    else defect .sectionBase
  | none => orFail (.undefinedSymbol name) (externals.lookup name)

def link (o : Object) (base : Word) (externals : List (String × Word)) : Checked (List UInt8) :=
  o.relocations.foldlM
    (fun image r => do r.apply image base (← o.address base externals r.symbol)) o.code

end Object

end DirectPage
