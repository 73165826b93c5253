import DirectPage.Pseudo.Text

/-! Functions in pseudo-operations. -/
namespace DirectPage

/-- A function in pseudo-operations. Blocks are laid out in order, and control runs from one
into the next unless its last operation prevents it. -/
structure Routine where
  name : String
  blocks : List (List Pseudo)
  /-- Class of each virtual register. -/
  classes : List RegClass := []
  /-- Registers that hold arguments at entry. -/
  liveIns : List Register := []
  /-- Constants, as bytes. -/
  pool : List (List UInt8) := []
  /-- Short-lived virtual registers of spill code, which are not spilled again. -/
  temps : List Nat := []
  deriving DecidableEq, Repr

def firstTerminator (block : List Pseudo) : Nat := block.findIdx Pseudo.isTerminator

def insertBeforeTerminators (insts block : List Pseudo) : List Pseudo :=
  let k := firstTerminator block
  block.take k ++ insts ++ block.drop k

/-- Whether control may run off the end of a block. -/
def fallsThrough (block : List Pseudo) : Bool :=
  match block.getLast? with
  | some (.jump _) | some (.ret _) | some .trap => false
  | _ => true

def branchTargets (block : List Pseudo) : List Ir.BlockId :=
  block.filterMap fun
    | .brCc _ target => some target
    | .jump target => some target
    | _ => none

namespace Routine

def empty (name : String) (blocks : Nat) : Routine :=
  { name := name, blocks := List.replicate blocks [] }

def numVRegs (f : Routine) : Nat := f.classes.length

def classOf? (f : Routine) (v : Nat) : Option RegClass := f.classes[v]?

def newVReg (f : Routine) (cls : RegClass) : Reg × Routine :=
  (.virt f.numVRegs, { f with classes := f.classes ++ [cls] })

/-- A new virtual register that carries a value between its stack slot and one operation. -/
def newTemp (f : Routine) (cls : RegClass) : Reg × Routine :=
  (.virt f.numVRegs, { f with classes := f.classes ++ [cls], temps := f.numVRegs :: f.temps })

def isTemp (f : Routine) (v : Nat) : Bool := f.temps.contains v

/-- Narrow a virtual register of any general class to the first sixteen registers. -/
def constrain (f : Routine) (r : Reg) (cls : RegClass) : Routine :=
  match r, cls with
  | .virt v, .gprLow =>
    if f.classOf? v = some .gpr then { f with classes := f.classes.set v .gprLow } else f
  | _, _ => f

/-- The number of a constant, which is added unless it is there already. -/
def addConstant (f : Routine) (bytes : List UInt8) : Nat × Routine :=
  match f.pool.findIdx? (· == bytes) with
  | some i => (i, f)
  | none => (f.pool.length, { f with pool := f.pool ++ [bytes] })

/-- Blocks that control may go to from a block, each once; none for a missing block. -/
def successors (f : Routine) (b : Nat) : List Nat :=
  match f.blocks[b]? with
  | none => []
  | some block =>
    let targets := (branchTargets block).foldl
      (fun acc t => if acc.contains t then acc else acc ++ [t]) []
    if fallsThrough block && b + 1 < f.blocks.length && !targets.contains (b + 1) then
      targets ++ [b + 1]
    else targets

def hasCalls (f : Routine) : Bool := f.blocks.any fun block => block.any Pseudo.isCall

/-- A name line, then a line for each block and operation. -/
def text (f : Routine) : String :=
  let blockLines := f.blocks.mapIdx fun i block =>
    (Ir.blockText i ++ ":\n") :: block.map fun m => "    " ++ m.text ++ "\n"
  String.join ((f.name ++ ":\n") :: blockLines.flatten)

end Routine

abbrev RegMap := Nat → Option Register

def RegMap.apply (map : RegMap) : Reg → Reg
  | .virt v => match map v with
    | some r => .phys r
    | none => .virt v
  | r => r

def RegMap.missing? (map : RegMap) : Reg → Option Nat
  | .virt v => if (map v).isNone then some v else none
  | .phys _ => none

def Routine.assign (f : Routine) (map : RegMap) : Routine :=
  { f with blocks := f.blocks.map fun block => block.map fun m => m.mapRegs map.apply }

def Routine.unassigned? (f : Routine) (map : RegMap) : Option Nat :=
  f.blocks.findSome? fun block => block.findSome? fun m => m.regs.findSome? map.missing?

def Routine.assignAll (f : Routine) (map : RegMap) : Checked Routine :=
  match f.unassigned? map with
  | some v => fail (.unassignedRegister v)
  | none => .ok (f.assign map)

end DirectPage
