import DirectPage.Ir.Inst

/-! Functions and the checks they must pass. -/
namespace DirectPage.Ir

structure StackSlot where
  size : Nat
  align : Nat
  deriving DecidableEq, Repr

structure Block where
  insts : List Inst := []
  terminator : Terminator := .unreachable
  deriving DecidableEq, Repr

/-- A function. Block 0 is its entry; `valueTypes` gives the type of every value. -/
structure Function where
  name : String
  params : List Value := []
  returns : List Ty := []
  variadic : Bool := false
  blocks : List Block := []
  valueTypes : List Ty := []
  slots : List StackSlot := []
  deriving DecidableEq, Repr

namespace Function

def invalid {α : Type} (f : Function) (fault : FunctionFault) : Checked α :=
  fail (.invalidInput (.function f.name fault))

def valueType (f : Function) (v : Value) : Checked Ty :=
  match f.valueTypes[v]? with
  | some ty => .ok ty
  | none => f.invalid (.noType v)

def slot (f : Function) (s : SlotId) : Checked StackSlot :=
  match f.slots[s]? with
  | some slot => .ok slot
  | none => f.invalid (.missingSlot s)

def paramTypes (f : Function) : List Ty := f.params.map fun p => f.valueTypes.getD p .i32

def hasCalls (f : Function) : Bool := f.blocks.any fun b => b.insts.any Inst.isCall

def isFloat (f : Function) (v : Value) : Bool :=
  match f.valueTypes[v]? with
  | some ty => ty.isFloat
  | none => false

def addressFault? (f : Function) (a : Address) : Option InstFault :=
  match a.base with
  | .slot s => if s < f.slots.length then none else some (.missingSlot s)
  | .value v => if f.isFloat v then some (.floatAddress v) else none
  | .global _ => none

/-- What is wrong with an instruction whose values all have types, if anything. -/
def instFault? (f : Function) : Inst → Option InstFault
  | .binary _ dst lhs _ | .unary _ dst lhs =>
    if f.isFloat dst || f.isFloat lhs then some (.integerOnFloat dst) else none
  | .fbinary _ dst lhs rhs =>
    if f.isFloat dst && f.isFloat lhs && f.isFloat rhs then none else some (.floatOnInteger dst)
  | .funary _ dst src =>
    if f.isFloat dst && f.isFloat src then none else some (.floatOnInteger dst)
  | .load _ _ _ addr | .store _ _ addr => f.addressFault? addr
  | .slotAddr _ s => if s < f.slots.length then none else some (.missingSlot s)
  | .blockAddr _ b => if b < f.blocks.length then none else some (.missingBlock b)
  | .vaStart _ => if f.variadic then none else some .vaStart
  | .dynAlloca _ _ align => if isPowerOfTwo align then none else some (.alignment align)
  | _ => none

def checkTyped (f : Function) (vs : List Value) : Checked Unit :=
  vs.forM fun v => do let _ ← f.valueType v

def checkInst (f : Function) (b : BlockId) (inst : Inst) : Checked Unit := do
  f.checkTyped (inst.defs ++ inst.uses)
  match f.instFault? inst with
  | some fault => f.invalid (.inst b fault)
  | none => pure ()

def checkTerminator (f : Function) (b : BlockId) (term : Terminator) : Checked Unit := do
  f.checkTyped term.uses
  term.successors.forM fun s =>
    if s < f.blocks.length then pure () else f.invalid (.missingTarget b s)
  match term with
  | .ret values =>
    let types ← values.mapM f.valueType
    if types = f.returns then pure () else f.invalid (.returnTypes b types f.returns)
  | _ => pure ()

def checkBlocks (f : Function) : BlockId → List Block → Checked Unit
  | _, [] => pure ()
  | b, block :: rest => do
    block.insts.forM (f.checkInst b)
    f.checkTerminator b block.terminator
    f.checkBlocks (b + 1) rest

/-- Every value, block and slot that is named exists, operands are of the right kind, and
returns match the signature. -/
def verify (f : Function) : Checked Unit := do
  if f.blocks.isEmpty then f.invalid .noBlocks
  f.checkTyped f.params
  if f.variadic && f.params.isEmpty then f.invalid .noFixedParam
  f.checkBlocks 0 f.blocks

end Function

end DirectPage.Ir
