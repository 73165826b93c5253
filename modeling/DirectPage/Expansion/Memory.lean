import DirectPage.Expansion.Operand
import DirectPage.Frame

/-! Instructions for memory accesses, addresses and the stack pointer.

A pointer in a slot is used with the offset in `Y`. From the stack pointer an address is
computed in `X` for words; for narrow accesses, and from the frame base, it is computed in
the scratch slot. -/
namespace DirectPage.Expansion

inductive Place
  /-- Pointer in a slot, and offset. -/
  | pointer (slot : UInt8) (offset : Word)
  /-- Offset from the stack pointer. -/
  | stack (offset : Word)
  | based (slot : UInt8) (offset : Word)
  | absolute (s : SymbolRef)
  deriving DecidableEq, Repr

def place (frame : Frame) (base : MemBase) (offset : Word) : Checked Place := do
  match base with
  | .reg r => return .pointer (← r.slot) offset
  | .sp => return .stack offset
  | .frame index =>
    match ← frame.resolve index offset with
    | (.sp, total) => return .stack total
    | (.reg r, total) => return .based (← r.slot) total
  | .symbol s =>
    let addend ← orFail (.internal (.addressOverflow s offset))
      (Word.ofSigned? (s.addend.toInt + offset.toInt))
    return .absolute { s with addend := addend }

def addToA (offset : Word) : List Instruction :=
  if offset = 0#32 then [] else [.implied .clc, withConst .adcImm offset]

/-- Accumulator to stack pointer plus offset; `X` changes. -/
def stackPlus (offset : Word) : List Instruction :=
  .implied .tsx :: .implied .txa :: addToA offset

def slotPlus (slot : UInt8) (offset : Word) : List Instruction := lda slot :: addToA offset

/-- Instructions that make a pointer to a place, with its slot and the offset that remains. -/
def pointerTo (p : Place) : Checked (List Instruction × UInt8 × Word) := do
  let tmp ← scratch.slot
  match p with
  | .pointer slot offset => return ([], slot, offset)
  | .stack offset => return (stackPlus offset ++ [sta tmp], tmp, 0#32)
  | .based slot offset => return (slotPlus slot offset ++ [sta tmp], tmp, 0#32)
  | .absolute s => return ([.regAluImm .movr tmp (.symbol s)], tmp, 0#32)

def narrowLoad? : Width → Option (ExtOpcode × ExtendOp)
  | .byte => some (.ldB, .sext8)
  | .half => some (.ldW, .sext16)
  | .word => none

def narrowStore? : Width → Option ExtOpcode
  | .byte => some .stB
  | .half => some .stW
  | .word => none

def loadWord (p : Place) : Code := do
  match p with
  | .stack offset => return stackPlus offset ++ [.implied .tax, .absoluteX .ldaAbsX 0]
  | .absolute s => return [.absolute .ldaAbs (.symbol s)]
  | p =>
    let (setup, ptr, y) ← pointerTo p
    return setup ++ [withConst .ldyImm y, .direct .ldaIndY ptr]

def load (frame : Frame) (dst : Reg) (width : Width) (ext : Ir.Extension) (base : MemBase)
    (offset : Word) : Code := do
  let d ← dst.slot
  let p ← place frame base offset
  match narrowLoad? width with
  | none => return (← loadWord p) ++ [sta d]
  | some (op, sext) =>
    let (setup, ptr, y) ← pointerTo p
    let code := setup ++ [withConst .ldyImm y, .extDirect op ptr, sta d]
    match ext with
    | .zero => return code
    | .sign =>
      let n ← dst.number
      return code ++ [.extend sext n n]

/-- Store a slot as a word. For an offset from the stack pointer the value waits on the stack
while `X` is computed, and the push moves the stack pointer by a word. -/
def storeWord (s : UInt8) (p : Place) : Code := do
  match p with
  | .stack offset =>
    return [lda s, .implied .pha, .implied .tsx, .implied .txa, .implied .clc,
      withConst .adcImm (offset + 4#32), .implied .tax, .implied .pla, .absoluteX .staAbsX 0]
  | .absolute sym => return [lda s, .absolute .staAbs (.symbol sym)]
  | p =>
    let (setup, ptr, y) ← pointerTo p
    return setup ++ [withConst .ldyImm y, lda s, .direct .staIndY ptr]

def store (frame : Frame) (src : Reg) (width : Width) (base : MemBase) (offset : Word) :
    Code := do
  let s ← src.slot
  let p ← place frame base offset
  match narrowStore? width with
  | none => storeWord s p
  | some op =>
    let (setup, ptr, y) ← pointerTo p
    return setup ++ [withConst .ldyImm y, lda s, .extDirect op ptr]

def floatBase (base : Reg) : Checked UInt8 := do
  let r ← base.assigned
  match r with
  | .general n => if n < 16 then return n else defect (.floatBase r)
  | _ => defect (.floatBase r)

def floatMem (op : FloatMemOp) (freg : Reg) (prec : Precision) (base : FMemBase) : Code := do
  let f ← freg.number
  match base with
  | .reg r => return [.floatMem op prec f (← floatBase r)]
  | .symbol s => return [.floatMemAbs op prec f (.symbol s)]

def frameAddr (frame : Frame) (dst : Reg) (index : Nat) (offset : Word) : Code := do
  let d ← dst.slot
  match ← frame.resolve index offset with
  | (.sp, total) => return stackPlus total ++ [sta d]
  | (.reg r, total) => return slotPlus (← r.slot) total ++ [sta d]

def spAddr (dst : Reg) (offset : Word) : Code := do
  let d ← dst.slot
  return stackPlus offset ++ [sta d]

/-- Take bytes off the stack. The block ends with the word that was free, and a word below it
stays free. -/
def dynAlloc (dst size : Reg) (align : Nat) : Code := do
  let d ← dst.slot
  let s ← size.slot
  let align := max align 4
  if !isPowerOfTwo align then defect (.alignment align)
  if 2147483648 ≤ align then fail (.unsupportedFeature (.alignment align))
  return [.implied .tsx, .implied .txa, .implied .clc, withConst .adcImm 4#32, .implied .sec,
    .direct .sbcDp s, withConst .andImm (-BitVec.ofNat 32 align), sta d, .implied .sec,
    withConst .sbcImm 4#32, .implied .tax, .implied .txs]

def spAdjust (delta : Word) : List Instruction :=
  if delta = 0#32 then []
  else
    let change : List Instruction :=
      if delta.slt 0#32 then [.implied .sec, withConst .sbcImm (-delta)]
      else [.implied .clc, withConst .adcImm delta]
    [Instruction.implied .tsx, .implied .txa] ++ change ++ [Instruction.implied .tax, .implied .txs]

/-- Move the stack pointer for a call, unless its area is part of the frame. -/
def callStack (frame : Frame) (size : Nat) (down : Bool) : Code :=
  match frame.callAdjustment? size with
  | none => .ok []
  | some bytes =>
    if 2147483648 ≤ bytes then fail (.unsupportedFeature (.callFrame bytes))
    else
      let delta := BitVec.ofNat 32 bytes
      .ok (spAdjust (if down then -delta else delta))

def push (r : Register) : Code := do return [lda (← r.slot), .implied .pha]

def pop (r : Register) : Code := do return [.implied .pla, sta (← r.slot)]

def setFrameBase : Code := do return [.implied .tsx, .direct .stxDp (← frameBase.slot)]

def restoreSp : Code := do return [.direct .ldxDp (← frameBase.slot), .implied .txs]

end DirectPage.Expansion
