import DirectPage.Selection.Context

/-! Addresses, loads and stores.

Frame objects stay symbolic until the frame is laid out. Float accesses take an address
without offset in one of the first sixteen registers, so theirs is computed first. -/
namespace DirectPage.Selection

def widthOf : Ir.Ty → Width
  | .i8 => .byte
  | .i16 => .half
  | _ => .word

/-- The frame object of a stack slot: slots are the first objects of a frame. -/
def slotIndex (f : Ir.Function) (s : Ir.SlotId) : Checked Nat :=
  if s < f.slots.length then .ok s else f.invalid (.missingSlot s)

def moved (s : SymbolRef) (offset : Word) : SymbolRef := { s with addend := s.addend + offset }

def memOperand (f : Ir.Function) (a : Ir.Address) : Select (MemBase × Word) :=
  match a.base with
  | .value v => do return (.reg (← reg f v), a.offset)
  | .slot s => do return (.frame (← slotIndex f s), a.offset)
  | .global s => return (.symbol (moved s a.offset), 0#32)

def floatMemOperand (f : Ir.Function) (a : Ir.Address) : Select FMemBase := do
  match a.base with
  | .global s => return .symbol (moved s a.offset)
  | .value v =>
    let t ← temp .gprLow
    let base ← reg f v
    if a.offset = 0#32 then emit (.copy t base) else emit (.aluImm .add t base a.offset)
    return .reg t
  | .slot s =>
    let t ← temp .gprLow
    emit (.frameAddr t (← slotIndex f s) a.offset)
    return .reg t

def load (f : Ir.Function) (dst : Ir.Value) (ty : Ir.Ty) (ext : Ir.Extension) (a : Ir.Address) :
    Select Unit := do
  let _ ← legal .load ty
  let d ← reg f dst
  if ty.isFloat then
    let prec ← formatOf "float memory access" ty
    emit (.fload d prec (← floatMemOperand f a))
  else
    let (base, offset) ← memOperand f a
    emit (.load d (widthOf ty) ext base offset)

def store (f : Ir.Function) (src : Ir.Value) (ty : Ir.Ty) (a : Ir.Address) : Select Unit := do
  let _ ← legal .store ty
  let s ← reg f src
  if ty.isFloat then
    let prec ← formatOf "float memory access" ty
    emit (.fstore s prec (← floatMemOperand f a))
  else
    let (base, offset) ← memOperand f a
    emit (.store s (widthOf ty) base offset)

def const (f : Ir.Function) (dst : Ir.Value) (value : Word) : Select Unit := do
  let _ ← legal .const (← f.valueType dst)
  emit (.loadImm (← reg f dst) value)

def fconst (f : Ir.Function) (dst : Ir.Value) (value : Double) : Select Unit := do
  let _ ← legal .fconst (← f.valueType dst)
  let _ ← legal .constantPool .ptr
  let prec ← precision f dst
  let cx ← get
  let (index, routine) := cx.routine.addConstant (value.bytesIn prec)
  set { cx with routine := routine }
  let addr ← temp .gprLow
  emit (.loadAddr addr (.pool index))
  emit (.fload (← reg f dst) prec (.reg addr))

def address (f : Ir.Function) (op : Operation) (dst : Ir.Value) (target : AddrTarget) :
    Select Unit := do
  let _ ← legal op (← f.valueType dst)
  emit (.loadAddr (← reg f dst) target)

def slotAddr (f : Ir.Function) (dst : Ir.Value) (s : Ir.SlotId) : Select Unit := do
  let _ ← legal .frameIndex (← f.valueType dst)
  let index ← slotIndex f s
  emit (.frameAddr (← reg f dst) index 0#32)

def frameAddr (f : Ir.Function) (dst : Ir.Value) (depth : Nat) : Select Unit := do
  let _ ← legal .frameAddr (← f.valueType dst)
  if depth ≠ 0 then fail (.unsupportedFeature (.frameDepth depth))
  withPlan fun plan => ((), { plan with addressTaken := true })
  emit (.copy (← reg f dst) (.phys frameBase))

def returnAddr (f : Ir.Function) (dst : Ir.Value) (depth : Nat) : Select Unit := do
  let _ ← legal .returnAddr (← f.valueType dst)
  if depth ≠ 0 then fail (.unsupportedFeature (.returnDepth depth))
  let index ← withPlan FramePlan.returnAddressIndex
  emit (.load (← reg f dst) .word .zero (.frame index) 0#32)

def dynAlloca (f : Ir.Function) (dst size : Ir.Value) (align : Nat) : Select Unit := do
  let _ ← legal .dynAlloc (← f.valueType dst)
  withPlan fun plan => ((), { plan with hasVarSized := true })
  let d ← reg f dst
  let s ← reg f size
  emit (.dynAlloc d s align)

def vaStart (f : Ir.Function) (list : Ir.Value) : Select Unit := do
  let _ ← legal .vaStart (← f.valueType list)
  let index ← orFail (.internal (.vaStart f.name)) (← get).plan.vararg
  let addr ← temp .gpr
  emit (.frameAddr addr index 0#32)
  emit (.store addr .word (.reg (← reg f list)) 0#32)

end DirectPage.Selection
