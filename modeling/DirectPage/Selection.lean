import DirectPage.Selection.Arithmetic
import DirectPage.Selection.Call
import DirectPage.Selection.Memory
import DirectPage.Selection.ShiftParts

/-! Instruction selection: from functions over values to pseudo-operations.

Every value gets a virtual register of its bank; assigned registers appear only where the
calling convention asks for them. -/
namespace DirectPage.Selection

def selectInst (f : Ir.Function) : Ir.Inst → Select Unit
  | .const dst value => const f dst value
  | .fconst dst value => fconst f dst value
  | .copy dst src => copy f dst src
  | .binary op dst lhs rhs => binary f op dst lhs rhs
  | .unary op dst src => unary f op dst src
  | .fbinary op dst lhs rhs => fbinary f op dst lhs rhs
  | .funary op dst src => funary f op dst src
  | .convert op dst src => convert f op dst src
  | .setCc cc dst lhs rhs => setCc f cc dst lhs rhs
  | .fsetCc cc dst lhs rhs => fsetCc f cc dst lhs rhs
  | .select dst cond onTrue onFalse => select f dst cond onTrue onFalse
  | .selectCc cc dst lhs rhs onTrue onFalse => selectCc f cc dst lhs rhs onTrue onFalse
  | .fselectCc cc dst lhs rhs onTrue onFalse => fselectCc f cc dst lhs rhs onTrue onFalse
  | .shiftParts op dstLo dstHi lo hi amount => shiftParts f op dstLo dstHi lo hi amount
  | .load dst ty ext addr => load f dst ty ext addr
  | .store src ty addr => store f src ty addr
  | .globalAddr dst symbol => address f .globalAddress dst (.symbol symbol)
  | .externalSymbol dst name => address f .externalSymbol dst (.symbol ⟨name, 0#32⟩)
  | .blockAddr dst block => address f .blockAddress dst (.block block)
  | .slotAddr dst slot => slotAddr f dst slot
  | .frameAddr dst depth => frameAddr f dst depth
  | .returnAddr dst depth => returnAddr f dst depth
  | .dynAlloca dst size align => dynAlloca f dst size align
  | .vaStart list => vaStart f list
  | .call callee args numFixed results => call f callee args numFixed results

def selectTerminator (f : Ir.Function) : Ir.Terminator → Select Unit
  | .jump target => emit (.jump target)
  | .branch cond thenBlock elseBlock => branch f cond thenBlock elseBlock
  | .branchCc cc lhs rhs thenBlock elseBlock => branchCc f cc lhs rhs thenBlock elseBlock
  | .fbranchCc cc lhs rhs thenBlock elseBlock => fbranchCc f cc lhs rhs thenBlock elseBlock
  | .ret values => ret f values
  | .unreachable => emit .trap

def addressTaken (f : Ir.Function) : List Ir.BlockId :=
  f.blocks.flatMap fun block => block.insts.filterMap fun
    | .blockAddr _ b => some b
    | _ => none

def successorsOf (f : Ir.Function) (b : Ir.BlockId) : List Ir.BlockId :=
  match f.blocks[b]? with
  | some block => block.terminator.successors
  | none => []

def newIn (seen : List Nat) (bs : List Nat) : List Nat :=
  bs.foldl (fun acc b => if seen.contains b || acc.contains b then acc else acc ++ [b]) []

/-- Blocks reached from `frontier` in at most `steps` further steps, and those of `seen`. -/
def reach (f : Ir.Function) : Nat → List Nat → List Nat → List Nat
  | 0, seen, frontier => seen ++ frontier
  | steps + 1, seen, frontier =>
    if frontier.isEmpty then seen
    else
      let seen := seen ++ frontier
      reach f steps seen (newIn seen (frontier.flatMap (successorsOf f)))

/-- Blocks that are reachable from the entry or whose address is taken. -/
def reachable (f : Ir.Function) : List Ir.BlockId :=
  reach f f.blocks.length [] (newIn [] (0 :: addressTaken f))

def selectBlock (f : Ir.Function) (block : Ir.Block) : Select (List Pseudo) := do
  block.insts.forM (selectInst f)
  selectTerminator f block.terminator
  let cx ← get
  set { cx with out := [] }
  return cx.out

/-- Operations for the blocks from number `b` on. Unreachable blocks are left empty. -/
def selectBlocks (f : Ir.Function) (live : List Ir.BlockId) :
    Ir.BlockId → List Ir.Block → Select (List (List Pseudo))
  | _, [] => return []
  | b, block :: rest => do
    let head ← if live.contains b then selectBlock f block else pure []
    return head :: (← selectBlocks f live (b + 1) rest)

def slotPlan (f : Ir.Function) : FramePlan :=
  f.slots.foldl (fun plan s => (plan.addLocal s.size s.align).2) {}

def selectBody (f : Ir.Function) : Select (List (List Pseudo)) := do
  parameters f
  selectBlocks f (reachable f) 0 f.blocks

end DirectPage.Selection

namespace DirectPage

structure Selected where
  routine : Routine
  plan : FramePlan
  deriving DecidableEq, Repr

def Ir.Function.selectOperations (f : Ir.Function) : Checked Selected := do
  f.verify
  let start : Selection.Context :=
    { routine := .empty f.name 0, plan := Selection.slotPlan f }
  let (blocks, cx) ← (Selection.selectBody f).run start
  return ⟨{ cx.routine with blocks := blocks }, cx.plan⟩

end DirectPage
