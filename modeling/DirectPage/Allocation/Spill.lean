import DirectPage.Frame

/-! Spill code.

A spilled register lives in a frame object of its own. Before an operation that reads it a
temporary is loaded, and behind an operation that writes it another one is stored.
Temporaries are never spilled themselves. -/
namespace DirectPage.Allocation

structure SpillSlot where
  vreg : Nat
  index : Nat
  cls : RegClass
  deriving DecidableEq, Repr

def spillSize : RegClass → Nat
  | .fpr => 8
  | .gpr | .gprLow => wordSize

/-- Insert by number, in place of an entry with the same number. -/
def insertSlot (s : SpillSlot) : List SpillSlot → List SpillSlot
  | [] => [s]
  | t :: rest =>
    if s.vreg < t.vreg then s :: t :: rest
    else if s.vreg = t.vreg then s :: rest
    else t :: insertSlot s rest

/-- A frame object for each register, by number. The frame keeps those made before a
failure. -/
def addSlots (f : Routine) :
    List Nat → List SpillSlot → FramePlan → Checked (List SpillSlot) × FramePlan
  | [], slots, plan => (.ok slots, plan)
  | v :: rest, slots, plan =>
    match f.classOf? v with
    | none => (defect (.spilledNoClass v), plan)
    | some cls =>
      if f.isTemp v then (defect (.spilledTemporary v f.name), plan)
      else
        let (index, plan) := plan.addLocal (spillSize cls) wordSize
        addSlots f rest (insertSlot ⟨v, index, cls⟩ slots) plan

def reload (f : Routine) (dst : Reg) (s : SpillSlot) : List Pseudo × Routine :=
  match s.cls with
  | .fpr =>
    let (addr, f) := f.newTemp .gprLow
    ([.frameAddr addr s.index 0#32, .fload dst .double (.reg addr)], f)
  | .gpr | .gprLow => ([.load dst .word .zero (.frame s.index) 0#32], f)

def saveBack (f : Routine) (src : Reg) (s : SpillSlot) : List Pseudo × Routine :=
  match s.cls with
  | .fpr =>
    let (addr, f) := f.newTemp .gprLow
    ([.frameAddr addr s.index 0#32, .fstore src .double (.reg addr)], f)
  | .gpr | .gprLow => ([.store src .word (.frame s.index) 0#32], f)

structure Spilled where
  routine : Routine
  before : List Pseudo
  inst : Pseudo
  after : List Pseudo

namespace Spilled

def read (sp : Spilled) (s : SpillSlot) : Spilled :=
  let (t, f) := sp.routine.newTemp s.cls
  let (code, f) := reload f t s
  { sp with
    routine := f
    before := sp.before ++ code
    inst := sp.inst.mapRegs fun r => if r = .virt s.vreg then t else r }

def write (sp : Spilled) (s : SpillSlot) : Checked Spilled := do
  let (t, f) := sp.routine.newTemp s.cls
  if sp.inst.dst?.isNone then defect (.spilledNoResult s.vreg f.name)
  let (code, f) := saveBack f t s
  return { sp with routine := f, inst := sp.inst.withDst t, after := sp.after ++ code }

def step (m : Pseudo) (sp : Spilled) (s : SpillSlot) : Checked Spilled :=
  let sp := if m.uses.contains (.virt s.vreg) then sp.read s else sp
  if m.defs.contains (.virt s.vreg) then sp.write s else return sp

end Spilled

/-- One operation with its spill code. Behind a terminator there is no place for any. -/
def spillInst (slots : List SpillSlot) (f : Routine) (m : Pseudo) :
    Checked (List Pseudo × Routine) := do
  let sp ← slots.foldlM (Spilled.step m) ⟨f, [], m, []⟩
  if sp.inst.isTerminator && !sp.after.isEmpty then defect (.spilledTerminator sp.routine.name)
  return (sp.before ++ sp.inst :: sp.after, sp.routine)

def spillBlock (slots : List SpillSlot) : Routine → List Pseudo → Checked (List Pseudo × Routine)
  | f, [] => return ([], f)
  | f, m :: rest => do
    let (code, f) ← spillInst slots f m
    let (codes, f) ← spillBlock slots f rest
    return (code ++ codes, f)

def spillBlocks (slots : List SpillSlot) :
    Routine → List (List Pseudo) → Checked (List (List Pseudo) × Routine)
  | f, [] => return ([], f)
  | f, block :: rest => do
    let (code, f) ← spillBlock slots f block
    let (codes, f) ← spillBlocks slots f rest
    return (code :: codes, f)

def insertSpillCode (f : Routine) (plan : FramePlan) (spilled : List Nat) :
    Checked Routine × FramePlan :=
  let (slots, plan) := addSlots f spilled [] plan
  (do
    let (blocks, g) ← spillBlocks (← slots) f f.blocks
    return { g with blocks := blocks }, plan)

end DirectPage.Allocation
