import DirectPage.Selection.Context

/-! Compares with their consumers.

A compare and the branch or selection that reads its flags are one operation, so nothing
can come between them. -/
namespace DirectPage.Selection

inductive Fused
  | compare (cmp : Compare)
  | constant (b : Bool)
  deriving DecidableEq, Repr

def intCompare (cc : CondCode) (lhs : Reg) (rhs : CmpRhs Reg) : Fused :=
  match canonicalize cc lhs rhs with
  | .constant b => .constant b
  | .compare cc lhs rhs => .compare (.int cc lhs rhs)

def compareRhs (f : Ir.Function) : Ir.Operand → Select (CmpRhs Reg)
  | .value v => do return .reg (← reg f v)
  | .imm k => return .imm k

def valueCompare (f : Ir.Function) (cc : CondCode) (lhs : Ir.Value) (rhs : Ir.Operand) :
    Select Fused := do
  let l ← reg f lhs
  return intCompare cc l (← compareRhs f rhs)

def floatCompare (f : Ir.Function) (cc : FloatCond) (lhs rhs : Ir.Value) : Select Fused := do
  let _ ← legal .fsetCc (← f.valueType lhs)
  let prec ← precision f lhs
  let l ← reg f lhs
  let r ← reg f rhs
  let (cc, l, r) := canonicalizeFloat cc l r
  return .compare (.float cc prec l r)

def emitSet (f : Ir.Function) (dst : Ir.Value) (fused : Fused) : Select Unit := do
  let d ← reg f dst
  match fused with
  | .constant b => emit (.loadImm d (if b then 1#32 else 0#32))
  | .compare cmp =>
    let one ← temp .gpr
    let zero ← temp .gpr
    emit (.loadImm one 1#32)
    emit (.loadImm zero 0#32)
    emit (.selectCc cmp d one zero)

def emitSelect (f : Ir.Function) (dst : Ir.Value) (fused : Fused) (onTrue onFalse : Ir.Value) :
    Select Unit := do
  let d ← reg f dst
  let t ← reg f onTrue
  let e ← reg f onFalse
  match fused with
  | .constant b => emit (.copy d (if b then t else e))
  | .compare cmp => emit (.selectCc cmp d t e)

def emitBranch (fused : Fused) (thenBlock elseBlock : Ir.BlockId) : Select Unit :=
  match fused with
  | .constant b => emit (.jump (if b then thenBlock else elseBlock))
  | .compare cmp => do
    emit (.brCc cmp thenBlock)
    emit (.jump elseBlock)

def setCc (f : Ir.Function) (cc : CondCode) (dst lhs : Ir.Value) (rhs : Ir.Operand) :
    Select Unit := do
  let _ ← legal .setCc (← f.valueType lhs)
  emitSet f dst (← valueCompare f cc lhs rhs)

def fsetCc (f : Ir.Function) (cc : FloatCond) (dst lhs rhs : Ir.Value) : Select Unit := do
  emitSet f dst (← floatCompare f cc lhs rhs)

def selectCc (f : Ir.Function) (cc : CondCode) (dst lhs : Ir.Value) (rhs : Ir.Operand)
    (onTrue onFalse : Ir.Value) : Select Unit := do
  let _ ← legal .select (← f.valueType dst)
  emitSelect f dst (← valueCompare f cc lhs rhs) onTrue onFalse

def select (f : Ir.Function) (dst cond onTrue onFalse : Ir.Value) : Select Unit :=
  selectCc f .ne dst cond (.imm 0#32) onTrue onFalse

def fselectCc (f : Ir.Function) (cc : FloatCond) (dst lhs rhs onTrue onFalse : Ir.Value) :
    Select Unit := do
  let _ ← legal .select (← f.valueType dst)
  emitSelect f dst (← floatCompare f cc lhs rhs) onTrue onFalse

def branchCc (f : Ir.Function) (cc : CondCode) (lhs : Ir.Value) (rhs : Ir.Operand)
    (thenBlock elseBlock : Ir.BlockId) : Select Unit := do
  let _ ← legal .brCc (← f.valueType lhs)
  emitBranch (← valueCompare f cc lhs rhs) thenBlock elseBlock

def branch (f : Ir.Function) (cond : Ir.Value) (thenBlock elseBlock : Ir.BlockId) : Select Unit :=
  branchCc f .ne cond (.imm 0#32) thenBlock elseBlock

def fbranchCc (f : Ir.Function) (cc : FloatCond) (lhs rhs : Ir.Value)
    (thenBlock elseBlock : Ir.BlockId) : Select Unit := do
  emitBranch (← floatCompare f cc lhs rhs) thenBlock elseBlock

end DirectPage.Selection
