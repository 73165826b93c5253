import DirectPage.Allocation
import DirectPage.Expansion
import DirectPage.Selection
import DirectPage.Stream.Cleanup
import DirectPage.Stream.Resolve

/-! Compilation of functions and modules. -/
namespace DirectPage

structure Options where
  /-- Remove superfluous instructions. -/
  cleanup : Bool := true
  /-- Give branches that reach too far their long form. -/
  relaxing : Bool := true
  /-- Leave out jumps to the next block. -/
  folding : Bool := true
  deriving DecidableEq, Repr

/-- From a function with assigned registers and prologue to machine code, with the number of
instructions that were removed as superfluous. -/
def Routine.assemble (f : Routine) (frame : Frame) (options : Options) :
    Checked (EncodedFunction × Nat) := do
  let stream ← f.expand frame options.folding
  let cleaned := if options.cleanup then stream.clean else stream
  let encoded ← cleaned.finish options.relaxing frame.stackSize
  return (encoded, stream.instructions.size - cleaned.instructions.size)

def Allocation.Allocated.assemble (a : Allocation.Allocated) (options : Options) :
    Checked EncodedFunction := do
  let routine ← a.routine.assignAll a.assignment.regMap
  let frame ← { a.plan with calleeSaved := a.assignment.calleeSaved }.finalize
  let routine ← routine.withFrame frame
  let (encoded, _) ← routine.assemble frame options
  return encoded

structure Compilation where
  attempts : Nat
  result : Checked EncodedFunction

def Ir.Function.compileWith (f : Ir.Function) (options : Options) (alloc : Allocation.Allocator) :
    Compilation :=
  match f.selectOperations with
  | .error e => ⟨0, .error e⟩
  | .ok selected =>
    let outcome :=
      Allocation.allocate alloc selected.plan.reserved selected.routine selected.plan
    ⟨outcome.attempts, outcome.result.bind (·.assemble options)⟩

def Ir.Function.compile (f : Ir.Function) (options : Options) : Checked EncodedFunction :=
  (f.compileWith options Allocation.scanning).result

def compileModule (fs : List Ir.Function) (options : Options) : Checked Object :=
  fs.foldlM (fun object f => do object.push (← f.compile options)) {}

end DirectPage
