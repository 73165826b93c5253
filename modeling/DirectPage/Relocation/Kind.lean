import DirectPage.Word

/-! Kinds of patched fields, relocation types and symbol references. -/
namespace DirectPage

inductive FixupKind
  | abs8 | abs16 | abs24 | abs32 | pcRel8 | pcRel16
  deriving DecidableEq, Repr

inductive RelocType
  | none | r8 | r16 | r24 | r32 | pcRel8 | pcRel16
  deriving DecidableEq, Repr

namespace FixupKind

def width : FixupKind → Nat
  | abs8 | pcRel8 => 1
  | abs16 | pcRel16 => 2
  | abs24 => 3
  | abs32 => 4

/-- Whether the field counts from the end of its instruction. -/
def isPcRelative : FixupKind → Bool
  | pcRel8 | pcRel16 => true
  | _ => false

def relocType : FixupKind → RelocType
  | abs8 => .r8
  | abs16 => .r16
  | abs24 => .r24
  | abs32 => .r32
  | pcRel8 => .pcRel8
  | pcRel16 => .pcRel16

/-- Whether the field can hold `value`: relative fields are signed, absolute ones
take a signed or an unsigned reading. -/
def inRange (kind : FixupKind) (value : Int) : Bool :=
  let half := 1 <<< (8 * kind.width - 1)
  let top := if kind.isPcRelative then half else 2 * half
  decide (-(half : Int) ≤ value ∧ value < (top : Int))

def text : FixupKind → String
  | abs8 => "Absolute-8" | abs16 => "Absolute-16" | abs24 => "Absolute-24" | abs32 => "Absolute-32"
  | pcRel8 => "PC-relative-8" | pcRel16 => "PC-relative-16"

def name : FixupKind → String
  | abs8 => "Abs8" | abs16 => "Abs16" | abs24 => "Abs24" | abs32 => "Abs32" | pcRel8 => "PcRel8"
  | pcRel16 => "PcRel16"

def all : List FixupKind := [abs8, abs16, abs24, abs32, pcRel8, pcRel16]

end FixupKind

namespace RelocType

def text : RelocType → String
  | none => "R_M65832_NONE" | r8 => "R_M65832_8" | r16 => "R_M65832_16" | r24 => "R_M65832_24"
  | r32 => "R_M65832_32" | pcRel8 => "R_M65832_PCREL_8" | pcRel16 => "R_M65832_PCREL_16"

def name : RelocType → String
  | none => "None" | r8 => "R8" | r16 => "R16" | r24 => "R24" | r32 => "R32" | pcRel8 => "PcRel8"
  | pcRel16 => "PcRel16"

def number : RelocType → Nat
  | none => 0 | r8 => 1 | r16 => 2 | r24 => 3 | r32 => 4 | pcRel8 => 5 | pcRel16 => 6

def kind? : RelocType → Option FixupKind
  | none => Option.none
  | r8 => some .abs8
  | r16 => some .abs16
  | r24 => some .abs24
  | r32 => some .abs32
  | pcRel8 => some .pcRel8
  | pcRel16 => some .pcRel16

def all : List RelocType := [none, r8, r16, r24, r32, pcRel8, pcRel16]

end RelocType

structure SymbolRef where
  name : String
  addend : Word := 0#32
  deriving DecidableEq, Repr

def SymbolRef.text (s : SymbolRef) : String := s.name ++ s.addend.offsetText

end DirectPage
