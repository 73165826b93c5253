import DirectPage.Stream

/-! Layout of a stream: long forms for branches that reach too far, then displacements,
label addresses and bytes. -/
namespace DirectPage

def offsetsFrom (start : Nat) : List Instruction → List Nat
  | [] => [start]
  | i :: rest => start :: offsetsFrom (start + i.size) rest

/-- The constants start on the first word boundary behind the code. -/
def poolBase (codeSize : Nat) : Nat := alignUp codeSize 4

namespace Stream

def offsets (s : Stream) : Array Nat := (offsetsFrom 0 s.instructions.toList).toArray

def labelOffset (s : Stream) (offsets : Array Nat) (label : Nat) : Checked Nat :=
  match (s.labels[label]?).join with
  | some (.instr i) => orFail (.unresolvedLabel label) offsets[i]?
  | some (.pool at0) => .ok (poolBase (offsets.back?.getD 0) + at0)
  | none => fail (.unresolvedLabel label)

def displacement (s : Stream) (offsets : Array Nat) (i label : Nat) (instr : Instruction) :
    Checked Int := do
  let target ← s.labelOffset offsets label
  return (target : Int) - ((offsets.getD i 0 + instr.size : Nat) : Int)

def relaxBranch (s : Stream) (relaxing : Bool) (offsets : Array Nat)
    (instrs : Array Instruction) (fixup : Nat × Nat) : Checked (Array Instruction) := do
  let (i, label) := fixup
  match instrs[i]? with
  | none => abort
  | some instr =>
    let disp ← s.displacement offsets i label instr
    match instr.branchField? with
    | none => defect .fixupTarget
    | some (field, kind) =>
      if kind.inRange disp then return instrs
      match instr.relaxed? with
      | some long =>
        if relaxing then return instrs.setIfInBounds i long
        fail (.fixupOutOfRange kind disp (offsets.getD i 0 + field))
      | none => fail (.fixupOutOfRange kind disp (offsets.getD i 0 + field))

def relaxRound (s : Stream) (relaxing : Bool) : Checked Stream := do
  let instrs ← s.fixups.foldlM (s.relaxBranch relaxing s.offsets) s.instructions
  return { s with instructions := instrs }

def shortBranches (s : Stream) : Nat :=
  s.instructions.toList.countP fun i => i.relaxed?.isSome

/-- Take long forms until every displacement fits. Every round but the last leaves fewer
short branches. -/
def relax (s : Stream) (relaxing : Bool) : Checked Stream :=
  match s.relaxRound relaxing with
  | .error e => .error e
  | .ok next => if next.shortBranches < s.shortBranches then relax next relaxing else .ok next
termination_by s.shortBranches

def setDisplacement (s : Stream) (offsets : Array Nat) (instrs : Array Instruction)
    (fixup : Nat × Nat) : Checked (Array Instruction) := do
  let (i, label) := fixup
  match instrs[i]? with
  | none => abort
  | some instr =>
    let disp ← s.displacement offsets i label instr
    return instrs.setIfInBounds i (instr.withBranchOffset (BitVec.ofInt 32 disp))

def resolveImm (s : Stream) (offsets : Array Nat) : Imm → Checked Imm
  | .label l => do
    let offset ← s.labelOffset offsets l
    return .symbol ⟨s.name, BitVec.ofNat 32 offset⟩
  | imm => .ok imm

def resolveOperand (s : Stream) (offsets : Array Nat) (i : Instruction) : Checked Instruction :=
  match i.operand? with
  | none => .ok i
  | some imm => do
    let imm ← s.resolveImm offsets imm
    return i.mapOperand fun _ => imm

end Stream

def symbolFixups (start : Nat) : List Instruction → List Fixup
  | [] => []
  | i :: rest =>
    let tail := symbolFixups (start + i.size) rest
    match i.symbolic? with
    | some (field, kind, .symbol target) => ⟨start + field, kind, target, start + i.size⟩ :: tail
    | _ => tail

def encodeAll (is : List Instruction) : List UInt8 := is.flatMap Instruction.encode

/-- Constants behind no-operations up to a word boundary; nothing if there are none. -/
def poolImage (codeSize : Nat) (pool : List UInt8) : List UInt8 :=
  if pool.isEmpty then []
  else List.replicate (poolBase codeSize - codeSize) Opcode.nop.byte ++ pool

def Stream.finish (s : Stream) (relaxing : Bool) (stackSize : Nat) : Checked EncodedFunction := do
  let s ← s.relax relaxing
  let offsets := s.offsets
  let instrs ← s.fixups.foldlM (s.setDisplacement offsets) s.instructions
  let instrs ← instrs.toList.mapM (s.resolveOperand offsets)
  let code := encodeAll instrs
  return {
    name := s.name
    code := code ++ poolImage code.length s.poolBytes
    instructions := instrs
    fixups := symbolFixups 0 instrs
    stackSize := stackSize }

end DirectPage
