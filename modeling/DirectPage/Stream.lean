import DirectPage.Object
import DirectPage.Routine

/-! Streams of instructions with labels.

Branches and address operands refer to labels until the stream is complete. The labels of a
function's blocks come first, then those of its constants. -/
namespace DirectPage

/-- What a label is bound to: the start of an instruction, or an offset into the constants.
The position behind the last instruction counts as one. -/
inductive LabelDef
  | instr (i : Nat)
  | pool (offset : Nat)
  deriving DecidableEq, Repr

structure Stream where
  name : String
  instructions : Array Instruction := #[]
  /-- Each label's binding, if it has one. -/
  labels : List (Option LabelDef)
  /-- Place of each branch that waits for its displacement, and its label. -/
  fixups : List (Nat × Nat) := []
  /-- Number of blocks. -/
  blocks : Nat
  /-- Constants, as bytes. -/
  pool : List (List UInt8)
  deriving Repr

def poolLabels (offset : Nat) : List (List UInt8) → List (Option LabelDef)
  | [] => []
  | entry :: rest => some (.pool offset) :: poolLabels (offset + entry.length) rest

namespace Stream

def empty (name : String) (blocks : Nat) (pool : List (List UInt8)) : Stream where
  name := name
  labels := List.replicate blocks none ++ poolLabels 0 pool
  blocks := blocks
  pool := pool

def newLabel (s : Stream) : Nat × Stream :=
  (s.labels.length, { s with labels := s.labels ++ [none] })

def define (s : Stream) (label : Nat) : Stream :=
  { s with labels := s.labels.set label (some (.instr s.instructions.size)) }

def bindLabel (s : Stream) (label : Nat) : Checked Stream :=
  if label < s.labels.length then .ok (s.define label) else abort

def emit (s : Stream) (i : Instruction) : Stream :=
  { s with instructions := s.instructions.push i }

def emitAll (s : Stream) (is : List Instruction) : Stream :=
  { s with instructions := is.foldl Array.push s.instructions }

/-- Append a short branch to a label; without a condition it is always taken. -/
def emitBranch (s : Stream) (cond : Option BranchCond) (label : Nat) : Stream :=
  let i : Instruction := match cond with
    | some cond => .branch cond 0#32
    | none => .bra 0#32
  { s with
    instructions := s.instructions.push i
    fixups := s.fixups ++ [(s.instructions.size, label)] }

def blockLabel? (s : Stream) (b : Nat) : Option Nat := if b < s.blocks then some b else none

def poolLabel? (s : Stream) (i : Nat) : Option Nat :=
  if i < s.pool.length then some (s.blocks + i) else none

def poolBytes (s : Stream) : List UInt8 := s.pool.flatten

end Stream

end DirectPage
