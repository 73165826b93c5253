import DirectPage.Selection.Context

/-! Parameters, calls and returns. -/
namespace DirectPage.Selection

def parameter (f : Ir.Function) (param : Ir.Value) (ty : Ir.Ty) (loc : ArgLoc) : Select Unit := do
  let d ← reg f param
  match loc with
  | .reg r =>
    modify fun cx => { cx with routine.liveIns := cx.routine.liveIns ++ [r] }
    emit (.copy d (.phys r))
  | .stack offset size =>
    let index ← withPlan (·.addIncoming offset size)
    if ty.isFloat then
      let prec ← formatOf "float argument" ty
      let addr ← temp .gprLow
      emit (.frameAddr addr index 0#32)
      emit (.fload d prec (.reg addr))
    else emit (.load d .word .zero (.frame index) 0#32)

/-- Take all parameters, and note where variadic arguments start. -/
def parameters (f : Ir.Function) : Select Unit := do
  let _ ← legal .formalArguments .i32
  let types := f.paramTypes
  let plan ← planArguments types types.length
  (f.params.zip (types.zip plan.locs)).forM fun (param, ty, loc) => parameter f param ty loc
  if f.variadic then
    let _ ← withPlan (·.setVararg plan.stackSize)

/-- Put one argument in its place. A register argument is only noted, since registers are
filled after the last store. -/
def argument (f : Ir.Function) (arg : Ir.Value) (ty : Ir.Ty) (loc : ArgLoc) :
    Select (Option (Register × Reg)) := do
  let s ← reg f arg
  match loc with
  | .reg r => return some (r, s)
  | .stack offset _ =>
    let place := BitVec.ofNat 32 (returnAddressSize + offset)
    if ty.isFloat then
      let prec ← formatOf "float argument" ty
      let addr ← temp .gprLow
      emit (.spAddr addr place)
      emit (.fstore s prec (.reg addr))
    else emit (.store s .word .sp place)
    return none

def callTarget (f : Ir.Function) : Ir.Callee → Select CallTarget
  | .direct name => return .symbol name
  | .indirect v => do return .reg (← reg f v)

/-- Calls. The area for arguments has room for the return address as well. -/
def call (f : Ir.Function) (callee : Ir.Callee) (args : List Ir.Value) (numFixed : Option Nat)
    (results : List Ir.Value) : Select Unit := do
  let _ ← legal .call .ptr
  let types ← typesOf f args
  let plan ← planArguments types (numFixed.getD args.length)
  let size ← unsigned32 (returnAddressSize + plan.stackSize)
  withPlan fun p => ((), p.noteCall size)
  let target ← callTarget f callee
  emit (.callStackDown size)
  let inRegs ← (args.zip (types.zip plan.locs)).filterMapM fun (arg, ty, loc) =>
    argument f arg ty loc
  inRegs.forM fun (r, s) => emit (.copy (.phys r) s)
  emit (.call target (inRegs.map (·.1)) callClobbered)
  emit (.callStackUp size)
  let regs ← assignReturns (← typesOf f results)
  (results.zip regs).forM fun (result, r) => do emit (.copy (← reg f result) (.phys r))

def ret (f : Ir.Function) (values : List Ir.Value) : Select Unit := do
  let _ ← legal .ret .i32
  let regs ← assignReturns (← typesOf f values)
  (values.zip regs).forM fun (value, r) => do emit (.copy (.phys r) (← reg f value))
  emit (.ret regs)

/-- Float operations with two operands; the remainder is a call. -/
def fbinary (f : Ir.Function) (op : Ir.FBinOp) (dst lhs rhs : Ir.Value) : Select Unit := do
  let ty ← f.valueType dst
  match ← legal (.fbinary op) ty with
  | .libCall name => call f (.direct name) [lhs, rhs] none [dst]
  | _ =>
    let op : FAluOp ← match op with
      | .add => pure .add
      | .sub => pure .sub
      | .mul => pure .mul
      | .div => pure .div
      | .rem => fail (.noLoweringRule "frem" ty)
    let prec ← precision f dst
    let d ← reg f dst
    let l ← reg f lhs
    let r ← reg f rhs
    emit (.falu op prec d l r)

end DirectPage.Selection
