import DirectPage.Convention
import DirectPage.Routine

/-! Stack frames.

From high to low addresses a frame holds the incoming stack arguments, the return address,
the pushed registers with the caller's frame base first, the local objects, and the
arguments of calls made from it. The stack pointer stands at its lowest word. -/
namespace DirectPage

inductive FrameObject
  /-- An object below the pushed registers. -/
  | local (size align : Nat)
  /-- An incoming stack argument. -/
  | incoming (offset size : Nat)
  | returnAddress
  deriving DecidableEq, Repr

/-- A frame while operations that refer to it are still being added. -/
structure FramePlan where
  objects : List FrameObject := []
  hasVarSized : Bool := false
  addressTaken : Bool := false
  /-- Index of the return address, once asked for. -/
  returnAddress : Option Nat := none
  hasCalls : Bool := false
  /-- The largest argument area of a call. -/
  maxCallFrame : Nat := 0
  /-- Index of the first variadic argument. -/
  vararg : Option Nat := none
  calleeSaved : List Register := []
  deriving DecidableEq, Repr

namespace FramePlan

def push (p : FramePlan) (object : FrameObject) : Nat × FramePlan :=
  (p.objects.length, { p with objects := p.objects ++ [object] })

def addLocal (p : FramePlan) (size align : Nat) : Nat × FramePlan :=
  p.push (.local size (max align 1))

def addIncoming (p : FramePlan) (offset size : Nat) : Nat × FramePlan :=
  p.push (.incoming offset size)

def returnAddressIndex (p : FramePlan) : Nat × FramePlan :=
  match p.returnAddress with
  | some i => (i, p)
  | none =>
    let (i, p) := p.push .returnAddress
    (i, { p with returnAddress := some i })

def setVararg (p : FramePlan) (offset : Nat) : Nat × FramePlan :=
  let (i, p) := p.addIncoming offset 0
  (i, { p with vararg := some i })

def noteCall (p : FramePlan) (size : Nat) : FramePlan :=
  { p with hasCalls := true, maxCallFrame := max p.maxCallFrame size }

def needsFrameBase (p : FramePlan) : Bool := p.hasVarSized || p.addressTaken

def reserved (p : FramePlan) : Reserved := ⟨p.needsFrameBase⟩

end FramePlan

inductive FramePlace
  /-- Offset above the argument area of calls. A place is made with its offset, so that no local
  object is without one. -/
  | local (offset : Nat)
  /-- Offset into the incoming arguments. -/
  | incoming (offset : Nat)
  | returnAddress
  deriving DecidableEq, Repr

structure Frame where
  places : List FramePlace := []
  /-- Bytes kept for the arguments of calls. -/
  callFrameSize : Nat
  /-- Bytes below the pushed registers. -/
  stackSize : Nat
  frameBase : Bool
  /-- Whether the argument area of calls is part of the frame. -/
  reservedCallFrame : Bool
  /-- Pushed registers apart from the frame base. -/
  saved : List Register
  deriving DecidableEq, Repr

/-- The next multiple of `align`, below `2 ^ 32`. -/
def alignUp32 (n align : Nat) : Checked Nat := unsigned32 (alignUp n align)

def layoutObjects : Nat → List FrameObject → Checked (List FramePlace × Nat)
  | top, [] => .ok ([], top)
  | top, .local size align :: rest => do
    let start ← alignUp32 top align
    let (places, stop) ← layoutObjects (← unsigned32 (start + size)) rest
    return (.local start :: places, stop)
  | top, .incoming offset _ :: rest => do
    let (places, stop) ← layoutObjects top rest
    return (.incoming offset :: places, stop)
  | top, .returnAddress :: rest => do
    let (places, stop) ← layoutObjects top rest
    return (.returnAddress :: places, stop)

/-- The registers that the prologue pushes, each once and in order. The frame base is not
among them where it serves as one. -/
def savedRegisters (frameBaseLive : Bool) (used : List Register) : List Register :=
  let wanted := used.filter fun r => r.isCalleeSaved && !(frameBaseLive && r == frameBase)
  Register.sorted (wanted.foldl (fun acc r => if acc.contains r then acc else acc ++ [r]) [])

def FramePlan.finalize (p : FramePlan) : Checked Frame := do
  let callFrameSize :=
    if p.hasCalls then max p.maxCallFrame returnAddressSize else returnAddressSize
  let (places, top) ← layoutObjects 0 p.objects
  let locals ← alignUp32 top wordSize
  let stackSize ← alignUp32 (← unsigned32 (callFrameSize + locals)) wordSize
  return {
    places, callFrameSize, stackSize
    frameBase := p.needsFrameBase
    reservedCallFrame := !p.hasVarSized
    saved := savedRegisters p.needsFrameBase p.calleeSaved }

inductive SlotBase
  | sp
  | reg (r : Register)
  deriving DecidableEq, Repr

namespace Frame

def pushes (f : Frame) : Nat := f.saved.length + f.frameBase.toNat

def base (f : Frame) : SlotBase := if f.frameBase then .reg DirectPage.frameBase else .sp

def offset (f : Frame) (place : FramePlace) : Checked Nat := do
  let top ← unsigned32 (f.stackSize + wordSize * f.pushes)
  match place with
  | .local offset => unsigned32 (f.callFrameSize + offset)
  | .incoming offset => unsigned32 (top + incomingArgsOffset + offset)
  | .returnAddress => unsigned32 (top + wordSize)

/-- Base and offset of the byte `extra` behind the start of an object. -/
def resolve (f : Frame) (index : Nat) (extra : Word) : Checked (SlotBase × Word) := do
  let place ← orFail (.internal (.frameIndex index)) f.places[index]?
  let offset ← f.offset place
  if 2147483648 ≤ offset then fail (.unsupportedFeature (.frameOffset offset))
  let total ← orFail (.internal .frameOffset) (Word.ofSigned? (offset + extra.toInt))
  return (f.base, total)

def callAdjustment? (f : Frame) (size : Nat) : Option Nat :=
  if f.reservedCallFrame then none else some size

def prologue (f : Frame) : List Pseudo :=
  (if f.frameBase then [Pseudo.push DirectPage.frameBase] else []) ++ f.saved.map Pseudo.push ++
    (if 0 < f.stackSize then [Pseudo.spAdjust (-BitVec.ofNat 32 f.stackSize)] else []) ++
    (if f.frameBase then [Pseudo.setFrameBase] else [])

def epilogue (f : Frame) : List Pseudo :=
  (if f.frameBase then [Pseudo.restoreSp] else []) ++
    (if 0 < f.stackSize then [Pseudo.spAdjust (BitVec.ofNat 32 f.stackSize)] else []) ++
    f.saved.reverse.map Pseudo.pop ++ (if f.frameBase then [Pseudo.pop DirectPage.frameBase] else [])

/-- The operations at entry, unless the negated size of the frame is no signed word. -/
def entryCode (f : Frame) : Checked (List Pseudo) :=
  if f.stackSize = 2147483648 then abort else .ok f.prologue

end Frame

def insertBeforeReturn (insts block : List Pseudo) : List Pseudo :=
  match block.findIdx? Pseudo.isReturn with
  | some k => block.take k ++ insts ++ block.drop k
  | none => block

/-- The function with the prologue at its start and the epilogue before each return. -/
def Routine.withFrame (f : Routine) (frame : Frame) : Checked Routine := do
  let prologue ← frame.entryCode
  let entered := match f.blocks with
    | [] => []
    | entry :: rest => (prologue ++ entry) :: rest
  return { f with blocks := entered.map (insertBeforeReturn frame.epilogue) }

end DirectPage
