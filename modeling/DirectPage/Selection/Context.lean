import DirectPage.Frame
import DirectPage.Ir.Function
import DirectPage.Selection.Legality

/-! What instruction selection keeps while it walks a function. -/
namespace DirectPage.Selection

structure Context where
  /-- The function built so far, without its blocks. -/
  routine : Routine
  plan : FramePlan
  /-- Registers of the values met so far. -/
  values : List (Ir.Value × Reg) := []
  /-- Operations of the current block. -/
  out : List Pseudo := []
  deriving Repr

abbrev Select := StateT Context Checked

def emit (m : Pseudo) : Select Unit := modify fun cx => { cx with out := cx.out ++ [m] }

def temp (cls : RegClass) : Select Reg := do
  let cx ← get
  let (r, routine) := cx.routine.newVReg cls
  set { cx with routine := routine }
  return r

def bankOf (ty : Ir.Ty) : RegClass := if ty.isFloat then .fpr else .gpr

/-- The virtual register of a value, made when the value is first met. -/
def reg (f : Ir.Function) (v : Ir.Value) : Select Reg := do
  let cx ← get
  match cx.values.lookup v with
  | some r => return r
  | none =>
    let r ← temp (bankOf (← f.valueType v))
    modify fun cx => { cx with values := (v, r) :: cx.values }
    return r

def typesOf (f : Ir.Function) (vs : List Ir.Value) : Checked (List Ir.Ty) := vs.mapM f.valueType

def withPlan {α : Type} (step : FramePlan → α × FramePlan) : Select α := do
  let cx ← get
  let (a, plan) := step cx.plan
  set { cx with plan := plan }
  return a

/-- The float format of a type, with an error that names the use. -/
def formatOf (use : String) (ty : Ir.Ty) : Checked Precision :=
  orFail (.noLoweringRule use ty) ty.precision?

def precision (f : Ir.Function) (v : Ir.Value) : Checked Precision := do
  formatOf "float operation" (← f.valueType v)

end DirectPage.Selection
