import DirectPage.Stream

/-! Removal of superfluous instructions from a stream.

Removed are branches to the next instruction, a load of what was just stored, and a transfer
back of what was just transferred. A removed instruction's labels pass to the next one. -/
namespace DirectPage

def isRedundant (prev cur : Instruction) : Bool :=
  match prev, cur with
  | .direct .staDp x, .direct .ldaDp y => x == y
  | .implied .txa, .implied .tax => true
  | _, _ => false

/-- Which instructions stay, from place `i` on. `prev` is the instruction before if it stays;
`dropped` holds the places of branches to the next instruction. -/
def keepFrom (dropped : List Nat) (labelled : Nat → Bool) (prev : Option Instruction) (i : Nat) :
    List Instruction → List Bool
  | [] => []
  | cur :: rest =>
    let superfluous := match prev with
      | some p => isRedundant p cur && !labelled i
      | none => false
    let keep := !dropped.contains i && !superfluous
    keep :: keepFrom dropped labelled (if keep then some cur else none) (i + 1) rest

def newPlaces (i : Nat) : List Bool → List Nat
  | [] => [i]
  | keep :: rest => i :: newPlaces (if keep then i + 1 else i) rest

namespace Stream

def labelPlace? (s : Stream) (label : Nat) : Option Nat :=
  match (s.labels[label]?).join with
  | some (.instr i) => some i
  | _ => none

def branchesToNext (s : Stream) : List Nat :=
  s.fixups.filterMap fun (i, label) => if s.labelPlace? label = some (i + 1) then some i else none

def isLabelled (s : Stream) (i : Nat) : Bool := s.labels.contains (some (.instr i))

def keeps (s : Stream) : List Bool :=
  keepFrom s.branchesToNext s.isLabelled none 0 s.instructions.toList

def retain (s : Stream) (keep : List Bool) : Stream :=
  let places := (newPlaces 0 keep).toArray
  let kept := keep.toArray
  let moved (i : Nat) : Nat := places.getD (min i keep.length) 0
  { s with
    instructions := ((s.instructions.toList.zip keep).filterMap fun (i, k) =>
      if k then some i else none).toArray
    labels := s.labels.map fun
      | some (.instr i) => some (.instr (moved i))
      | l => l
    fixups := s.fixups.filterMap fun (i, label) =>
      if kept.getD i false then some (moved i, label) else none }

def cleanRound (s : Stream) : Stream := s.retain s.keeps

def clean (s : Stream) : Stream :=
  let next := s.cleanRound
  if next.instructions.size < s.instructions.size then next.clean else s
termination_by s.instructions.size

end Stream

end DirectPage
