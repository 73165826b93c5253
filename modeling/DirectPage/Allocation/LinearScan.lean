import DirectPage.Allocation.Interval
import DirectPage.Convention
import Std.Data.HashMap

/-! Linear scan: intervals take the first register that is free, in order of their starts.

An interval that finds none is spilled. A temporary of spill code is not: in its place the
value that lives longest among those in its way is spilled. -/
namespace DirectPage.Allocation

structure Assignment where
  map : List (Nat × Register) := []
  /-- Registers in the map that a call leaves as they were, in order. -/
  calleeSaved : List Register := []
  /-- Virtual registers to move to the stack; unless there are none the map is incomplete. -/
  spilled : List Nat := []
  deriving DecidableEq, Repr

def Assignment.regMap (a : Assignment) : RegMap := fun v => a.map.lookup v

abbrev Occupied := Std.HashMap Register (List Segment)

structure Setting where
  routine : Routine
  reserved : Reserved
  intervals : List Interval
  calls : List Nat
  /-- Destination and source of each copy. -/
  copies : List (Reg × Reg)

structure ScanState where
  map : List (Nat × Register) := []
  spilled : List Nat := []
  occupied : Occupied

def copies (f : Routine) : List (Reg × Reg) :=
  f.blocks.flatten.filterMap fun
    | .copy dst src => some (dst, src)
    | _ => none

/-- Registers that a virtual register is copied from or to. -/
def hints (cs : List (Reg × Reg)) (v : Nat) : List Reg :=
  cs.flatMap fun (dst, src) =>
    (if dst = .virt v then [src] else []) ++ (if src = .virt v then [dst] else [])

def isFree (occupied : Occupied) (range : Segment) (r : Register) : Bool :=
  !(occupied.getD r []).any range.overlaps

def occupy (occupied : Occupied) (range : Segment) (r : Register) : Occupied :=
  occupied.insert r (range :: occupied.getD r [])

namespace Setting

def crossesCall (s : Setting) (range : Segment) : Bool :=
  s.calls.any fun c => range.start < c && c < range.stop

/-- Registers of a class in the order they are tried. Across a call those that it leaves
as they were come first. -/
def candidates (s : Setting) (cls : RegClass) (range : Segment) : List Register :=
  let rs := s.reserved.allocatable cls
  if s.crossesCall range then
    rs.filter (·.isCalleeSaved) ++ rs.filter fun r => !r.isCalleeSaved
  else rs

def preferred (s : Setting) (map : List (Nat × Register)) (cls : RegClass) (v : Nat) :
    List Register :=
  ((hints s.copies v).filterMap fun
    | .phys r => some r
    | .virt w => map.lookup w).filter fun r => r.inClass cls && !s.reserved.contains r

/-- Whether a value in the map may make way for a temporary. -/
def canYield (s : Setting) (st : ScanState) (cands : List Register) (range : Segment)
    (iv : Interval) : Bool :=
  match st.map.lookup iv.vreg with
  | none => false
  | some r =>
    !s.routine.isTemp iv.vreg && !st.spilled.contains iv.vreg && cands.contains r &&
      iv.range.overlaps range

def livesLonger (a b : Interval) : Bool :=
  b.range.stop < a.range.stop || (a.range.stop == b.range.stop && b.vreg < a.vreg)

def longest : List Interval → Option Interval
  | [] => none
  | iv :: rest =>
    some (rest.foldl (fun best next => if livesLonger next best then next else best) iv)

/-- The value that is spilled when an interval finds no register. -/
def victim? (s : Setting) (st : ScanState) (cands : List Register) (iv : Interval) : Option Nat :=
  if s.routine.isTemp iv.vreg then
    (longest (s.intervals.filter (s.canYield st cands iv.range))).map (·.vreg)
  else some iv.vreg

def step (s : Setting) (st : ScanState) (iv : Interval) : Checked ScanState := do
  let cls ← orFail (.internal (.noClass iv.vreg)) (s.routine.classOf? iv.vreg)
  let cands := s.candidates cls iv.range
  match (s.preferred st.map cls iv.vreg ++ cands).find? (isFree st.occupied iv.range) with
  | some r =>
    return { st with map := (iv.vreg, r) :: st.map, occupied := occupy st.occupied iv.range r }
  | none =>
    let v ← orFail (.registerClassExhausted cls s.routine.name) (s.victim? st cands iv)
    return { st with spilled := st.spilled ++ [v] }

end Setting

def targetsExist (f : Routine) : Bool :=
  (List.range f.blocks.length).all fun b => (f.successors b).all (· < f.blocks.length)

def occupiedBy (f : Routine) : Occupied :=
  (usedRegisters f).foldl (fun occupied r => occupied.insert r (segments f r)) {}

/-- The registers of a map that a call leaves as they were, each once and in order. -/
def calleeSavedIn (map : List (Nat × Register)) : List Register :=
  Register.sorted (distinct ((map.map (·.2)).filter (·.isCalleeSaved)))

def linearScan (f : Routine) (reserved : Reserved) : Checked Assignment := do
  if !targetsExist f then abort
  let ivs := intervals f
  let setting : Setting := ⟨f, reserved, ivs, callPoints f, copies f⟩
  let st ← ivs.foldlM setting.step { occupied := occupiedBy f }
  return ⟨st.map, calleeSavedIn st.map, st.spilled⟩

end DirectPage.Allocation
