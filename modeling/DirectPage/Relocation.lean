import DirectPage.Error

/-! Fixups, relocations and patching.

Positions in a section are unsigned numbers of 64 bits. Where distances are computed from them
they are taken as signed ones, so that those from `2 ^ 63` on count as negative. A sum that
leaves 64 bits aborts. -/
namespace DirectPage

/-- Bytes that a patch needs in front of it and behind it are kept. -/
def patchBytes (bytes : List UInt8) (offset : Nat) (field : List UInt8) : List UInt8 :=
  bytes.take offset ++ field ++ bytes.drop (offset + field.length)

namespace FixupKind

/-- What must be added to a symbol's address for a field `fieldOffset` bytes into an
instruction of `length` bytes. A branch counts from the end of its instruction. -/
def bias (kind : FixupKind) (fieldOffset length : Nat) : Checked Int :=
  if kind.isPcRelative then
    if fieldOffset ≤ length then signed64 (-(BitVec.ofNat 64 (length - fieldOffset)).toInt) else abort
  else .ok 0

def apply (kind : FixupKind) (bytes : List UInt8) (offset : Nat) (value : Int) :
    Checked (List UInt8) :=
  if kind.inRange value then
    if offset + kind.width ≤ bytes.length then
      .ok (patchBytes bytes offset (lowBytes kind.width value))
    else do
      let _ ← unsigned64 (offset + kind.width)
      defect (.pastSectionEnd kind offset)
  else fail (.fixupOutOfRange kind value offset)

end FixupKind

structure Fixup where
  /-- Where the field is. -/
  offset : Nat
  kind : FixupKind
  target : SymbolRef
  instrEnd : Nat
  deriving DecidableEq, Repr

structure Relocation where
  offset : Nat
  rtype : RelocType
  symbol : String
  addend : Int
  deriving DecidableEq, Repr

/-- The relocation of a fixup. A field behind the end of its instruction has none. -/
def Fixup.toRelocation (f : Fixup) : Checked Relocation := do
  if f.instrEnd < f.offset then abort
  let bias ← f.kind.bias 0 (f.instrEnd - f.offset)
  return {
    offset := f.offset
    rtype := f.kind.relocType
    symbol := f.target.name
    addend := ← signed64 (f.target.addend.toInt + bias) }

/-- The same in a section in which the function of the fixup starts at `base`. -/
def Fixup.relocationAt (f : Fixup) (base : Nat) : Checked Relocation := do
  let r ← f.toRelocation
  return { r with offset := ← unsigned64 (r.offset + base) }

/-- Where a field is with its section at `base`. Of a field inside the section the address is
one in memory, and those are far below `2 ^ 63`. -/
def fieldAddress (bytes : List UInt8) (base : Word) (offset : Nat) : Checked Int :=
  if offset ≤ bytes.length then .ok (base.toNat + offset)
  else signed64 (base.toNat + (BitVec.ofNat 64 offset).toInt)

def Relocation.value (r : Relocation) (kind : FixupKind) (bytes : List UInt8) (base s : Word) :
    Checked Int := do
  let place ← fieldAddress bytes base r.offset
  let value ← signed64 (s.toNat + r.addend)
  if kind.isPcRelative then signed64 (value - place) else return value

def Relocation.apply (r : Relocation) (bytes : List UInt8) (base s : Word) :
    Checked (List UInt8) :=
  match r.rtype.kind? with
  | none => .ok bytes
  | some kind => do kind.apply bytes r.offset (← r.value kind bytes base s)

end DirectPage
