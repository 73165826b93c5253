import DirectPage.Allocation.LinearScan
import DirectPage.Allocation.Spill

/-! Register allocation in rounds, with spill code in between. -/
namespace DirectPage.Allocation

/-- One attempt at an assignment; the first argument counts the attempts before it. -/
abbrev Allocator := Nat → Routine → Reserved → Checked Assignment

def scanning : Allocator := fun _ f reserved => linearScan f reserved

structure Allocated where
  assignment : Assignment
  routine : Routine
  plan : FramePlan
  deriving Repr

structure Outcome where
  attempts : Nat
  result : Checked Allocated

/-- Try until nothing is left to spill, at most `left` more times. -/
def rounds (alloc : Allocator) (reserved : Reserved) (left attempts : Nat) (f : Routine)
    (plan : FramePlan) : Outcome :=
  match left with
  | 0 => ⟨attempts, defect (.noConvergence f.name (attempts - 1))⟩
  | left + 1 =>
    match alloc attempts f reserved with
    | .error e => ⟨attempts + 1, .error e⟩
    | .ok a =>
      if a.spilled.isEmpty then ⟨attempts + 1, .ok ⟨a, f, plan⟩⟩
      else
        match insertSpillCode f plan a.spilled with
        | (.error e, _) => ⟨attempts + 1, .error e⟩
        | (.ok f, plan) => rounds alloc reserved left (attempts + 1) f plan

/-- Allocate registers. Each round moves a value to the stack, so their number is bounded by
that of the virtual registers. -/
def allocate (alloc : Allocator) (reserved : Reserved) (f : Routine) (plan : FramePlan) : Outcome :=
  rounds alloc reserved (f.numVRegs + 2) 0 f plan

end DirectPage.Allocation
