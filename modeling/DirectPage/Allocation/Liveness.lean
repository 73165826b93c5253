import DirectPage.Routine

/-! Which registers are live at the borders of blocks.

A register is live at the start of a block if the block reads it before writing it, or if
the block does not write it and it is live at the start of a successor. Each register is
treated on its own, by a set of blocks that grows until it is stable. -/
namespace DirectPage.Allocation

def exposes (r : Reg) : List Pseudo → Bool
  | [] => false
  | m :: rest => m.uses.contains r || (!m.defs.contains r && exposes r rest)

def kills (r : Reg) (block : List Pseudo) : Bool := block.any fun m => m.defs.contains r

structure BlockFacts where
  exposed : Bool
  killed : Bool
  succs : List Nat
  deriving DecidableEq, Repr

def holds (live : List Bool) (b : Nat) : Bool := live.getD b false

def BlockFacts.liveIn (facts : BlockFacts) (live : List Bool) : Bool :=
  facts.exposed || (!facts.killed && facts.succs.any (holds live))

def advance (facts : List BlockFacts) (live : List Bool) : List Bool :=
  facts.map fun b => b.liveIn live

theorem count_advance_le (facts : List BlockFacts) (live : List Bool) :
    (advance facts live).count true ≤ facts.length := by
  simpa [advance] using List.count_le_length (a := true) (l := advance facts live)

/-- Add blocks until none is missing. Every round adds one at least, so their number bounds
the rounds. -/
def stabilize (facts : List BlockFacts) (live : List Bool) : List Bool :=
  if live.count true < (advance facts live).count true then stabilize facts (advance facts live)
  else advance facts live
termination_by facts.length - live.count true
decreasing_by
  have := count_advance_le facts live
  omega

def factsOf (blocks : List (List Pseudo × List Nat)) (r : Reg) : List BlockFacts :=
  blocks.map fun (block, succs) => ⟨exposes r block, kills r block, succs⟩

def withSuccessors (f : Routine) : List (List Pseudo × List Nat) :=
  f.blocks.mapIdx fun b block => (block, f.successors b)

def liveIn (f : Routine) (r : Reg) : List Bool :=
  stabilize (factsOf (withSuccessors f) r) []

def liveOut (f : Routine) (r : Reg) : List Bool :=
  let live := liveIn f r
  (withSuccessors f).map fun (_, succs) => succs.any (holds live)

end DirectPage.Allocation
