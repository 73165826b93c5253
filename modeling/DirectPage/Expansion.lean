import DirectPage.Expansion.Arithmetic
import DirectPage.Expansion.Control
import DirectPage.Expansion.Memory

/-! From pseudo-operations with assigned registers to hardware instructions.

Every sequence reads its operands before it writes its result, since they may share a
register. The accumulator, the index registers, `T`, the scratch slot and the float scratch
register hold nothing from one operation to the next. -/
namespace DirectPage.Expansion

def code (s : Stream) (frame : Frame) : Pseudo → Code
  | .loadImm dst value => loadImm dst value
  | .loadAddr dst target => loadAddr s dst target
  | .frameAddr dst index offset => frameAddr frame dst index offset
  | .spAddr dst offset => spAddr dst offset
  | .copy dst src => copy dst src
  | .alu op dst lhs rhs => alu op dst lhs rhs
  | .aluImm op dst lhs imm => aluImm op dst lhs imm
  | .mulDiv op dst lhs rhs => mulDiv op dst lhs rhs
  | .shift op dst src amount => shift op dst src amount
  | .unary op dst src => unary op dst src
  | .load dst width ext base offset => load frame dst width ext base offset
  | .store src width base offset => store frame src width base offset
  | .fload dst prec base => floatMem .load dst prec base
  | .fstore src prec base => floatMem .store src prec base
  | .falu op prec dst lhs rhs => falu op prec dst lhs rhs
  | .funary op prec dst src => funary op prec dst src
  | .ftoi prec dst src => floatToSlot .toInt prec dst src
  | .itof prec dst src => slotToFloat .fromInt prec dst src
  | .fconvert prec dst src => fconvert prec dst src
  | .floatBits dst src => floatToSlot .toBits .single dst src
  | .bitsFloat dst src => slotToFloat .fromBits .single dst src
  | .dynAlloc dst size align => dynAlloc dst size align
  | .callStackDown size => callStack frame size true
  | .callStackUp size => callStack frame size false
  | .call target _ _ => call target
  | .ret _ => .ok [.implied .rts]
  | .trap => .ok [.implied .brk]
  | .push reg => push reg
  | .pop reg => pop reg
  | .spAdjust delta => .ok (spAdjust delta)
  | .setFrameBase => setFrameBase
  | .restoreSp => restoreSp
  | .selectCc .. | .brCc .. | .jump _ => .ok []

def expandInst (frame : Frame) (folding : Bool) (b : Nat) (s : Stream) (m : Pseudo) :
    Checked Stream :=
  match m with
  | .selectCc cmp dst onTrue onFalse => selectCc s cmp dst onTrue onFalse
  | .brCc cmp target => brCc s cmp target
  | .jump target => jump s folding target b
  | m => do return s.emitAll (← code s frame m)

def expandBlock (frame : Frame) (folding : Bool) (s : Stream) (b : Nat) (block : List Pseudo) :
    Checked Stream := do
  let label ← orFail (.internal (.noLabel b)) (s.blockLabel? b)
  block.foldlM (expandInst frame folding b) (s.define label)

def expandBlocks (frame : Frame) (folding : Bool) :
    Stream → Nat → List (List Pseudo) → Checked Stream
  | s, _, [] => .ok s
  | s, b, block :: rest => do
    let s ← expandBlock frame folding s b block
    expandBlocks frame folding s (b + 1) rest

end DirectPage.Expansion

namespace DirectPage

def Routine.expand (f : Routine) (frame : Frame) (folding : Bool) : Checked Stream :=
  Expansion.expandBlocks frame folding (.empty f.name f.blocks.length f.pool) 0 f.blocks

end DirectPage
