import DirectPage.Expansion.Operand
import DirectPage.Stream

/-! Instructions for branches, selections and calls.

A compare is followed only by branches of its plan and by copies that leave the flags
alone. -/
namespace DirectPage.Expansion

def compare : Compare → Checked (List Instruction × Plan × Plan)
  | .int cc lhs rhs => do
    let l ← lhs.slot
    let code ← match rhs with
      | .reg r => do pure [.regAlu .cmpr l (← r.slot)]
      | .imm k => pure [lda l, withConst .cmpImm k]
    return (code, cc.plan, cc.invert.plan)
  | .float cc prec lhs rhs => do
    let l ← lhs.number
    let r ← rhs.number
    return ([.float .cmp prec l r], cc.plan, cc.invert.plan)

def emitStep (target skip : Nat) (s : Stream) (step : BranchStep) : Stream :=
  s.emitBranch step.cond (match step.dest with
    | .target => target
    | .skip => skip)

def emitPlan (s : Stream) (plan : Plan) (target : Nat) : Stream :=
  let (skip, s) := s.newLabel
  (plan.foldl (emitStep target skip) s).define skip

def branchLabel (s : Stream) (b : Nat) : Checked Nat :=
  orFail (.internal (.branchTarget b)) (s.blockLabel? b)

def brCc (s : Stream) (cmp : Compare) (target : Nat) : Checked Stream := do
  let label ← branchLabel s target
  let (code, plan, _) ← compare cmp
  return emitPlan (s.emitAll code) plan label

/-- Copy one of two registers, as a compare decides. Where the destination is the first of
them, only the other one is copied. -/
def selectCc (s : Stream) (cmp : Compare) (dst onTrue onFalse : Reg) : Checked Stream := do
  let rd ← dst.assigned
  let rt ← onTrue.assigned
  let re ← onFalse.assigned
  if rt = re then return s.emitAll (← move dst onTrue)
  let (code, plan, inverse) ← compare cmp
  let (done, s) := (s.emitAll code).newLabel
  if rd = rt then
    let s := emitPlan s plan done
    return (s.emitAll (← move dst onFalse)).define done
  else
    let s := s.emitAll (← move dst onFalse)
    let s := emitPlan s inverse done
    return (s.emitAll (← move dst onTrue)).define done

def jump (s : Stream) (folding : Bool) (target current : Nat) : Checked Stream := do
  if folding && target == current + 1 then return s
  return s.emitBranch none (← branchLabel s target)

def loadAddr (s : Stream) (dst : Reg) (target : AddrTarget) : Code := do
  let value : Imm ← match target with
    | .symbol sym => pure (.symbol sym)
    | .block b => Imm.label <$> orFail (.internal (.blockAddress b)) (s.blockLabel? b)
    | .pool i => Imm.label <$> orFail (.internal (.poolEntry i)) (s.poolLabel? i)
  return [.regAluImm .movr (← dst.slot) value]

def call : CallTarget → Code
  | .symbol name => return [.absolute .jsr (.symbol ⟨name, 0#32⟩)]
  | .reg r => do return [.direct .jsrInd (← r.slot)]

end DirectPage.Expansion
