import DirectPage.Allocation.Liveness

/-! Positions in a function and the ranges over which registers are in use.

The operation at place `i`, counted through all blocks, reads at `2 * i` and writes at
`2 * i + 1`, so a result may take the register of an operand that is read for the last
time. -/
namespace DirectPage.Allocation

structure Segment where
  start : Nat
  stop : Nat
  deriving DecidableEq, Repr

def Segment.overlaps (s t : Segment) : Bool := s.start ≤ t.stop && t.start ≤ s.stop

structure PlacedBlock where
  /-- Place of the block's first operation. -/
  first : Nat
  insts : List Pseudo
  deriving DecidableEq, Repr

def PlacedBlock.range (b : PlacedBlock) : Segment :=
  ⟨2 * b.first, max (2 * (b.first + b.insts.length) - 1) (2 * b.first)⟩

def place (first : Nat) : List (List Pseudo) → List PlacedBlock
  | [] => []
  | block :: rest => ⟨first, block⟩ :: place (first + block.length) rest

abbrev Touch := Reg × Nat

def touchesFrom (i : Nat) : List Pseudo → List Touch
  | [] => []
  | m :: rest =>
    m.uses.map (·, 2 * i) ++ m.defs.map (·, 2 * i + 1) ++ touchesFrom (i + 1) rest

def touches (f : Routine) : List Touch := touchesFrom 0 f.blocks.flatten

def borders (f : Routine) (r : Reg) : List Nat :=
  let ranges := (place 0 f.blocks).map PlacedBlock.range
  ((ranges.zip (liveIn f r)).filterMap fun (s, live) => if live then some s.start else none) ++
    (ranges.zip (liveOut f r)).filterMap fun (s, live) => if live then some s.stop else none

def hull (p : Nat) (ps : List Nat) : Segment := ⟨ps.foldl min p, ps.foldl max p⟩

structure Interval where
  vreg : Nat
  range : Segment
  deriving DecidableEq, Repr

def interval? (f : Routine) (ts : List Touch) (v : Nat) : Option Interval :=
  let here := ts.filterMap fun (r, p) => if r = .virt v then some p else none
  match here ++ borders f (.virt v) with
  | [] => none
  | p :: ps => some ⟨v, hull p ps⟩

def Interval.before (a b : Interval) : Bool :=
  a.range.start < b.range.start || (a.range.start == b.range.start && a.vreg ≤ b.vreg)

/-- Members of a list, each once. -/
def distinct {α : Type} [DecidableEq α] (xs : List α) : List α := xs.eraseDups

def intervals (f : Routine) : List Interval :=
  let ts := touches f
  let vs := distinct (ts.filterMap (·.1.virt?))
  (vs.filterMap (interval? f ts)).mergeSort Interval.before

/-- What is known of an assigned register on the way up through a block: where the value it
holds is read last, and the ranges found so far. -/
structure Scan where
  until? : Option Nat
  segments : List Segment
  deriving DecidableEq, Repr

/-- One operation, at place `i`, on the way up. -/
def Scan.step (r : Reg) (i : Nat) (m : Pseudo) (s : Scan) : Scan :=
  let s : Scan :=
    if m.defs.contains r then ⟨none, ⟨2 * i + 1, s.until?.getD (2 * i + 1)⟩ :: s.segments⟩ else s
  if m.uses.contains r then { s with until? := s.until?.or (some (2 * i)) } else s

def scanUp (r : Reg) (last : Scan) (i : Nat) : List Pseudo → Scan
  | [] => last
  | m :: rest => (scanUp r last (i + 1) rest).step r i m

/-- Ranges in which a block uses an assigned register. A write that is never read takes up
its own position. -/
def blockSegments (r : Reg) (b : PlacedBlock) (liveAtEnd : Bool) : List Segment :=
  let last : Scan := ⟨if liveAtEnd then some b.range.stop else none, []⟩
  let s := scanUp r last b.first b.insts
  match s.until? with
  | some stop => ⟨b.range.start, stop⟩ :: s.segments
  | none => s.segments

def segments (f : Routine) (r : Register) : List Segment :=
  ((place 0 f.blocks).zip (liveOut f (.phys r))).flatMap fun (b, live) =>
    blockSegments (.phys r) b live

def usedRegisters (f : Routine) : List Register :=
  distinct ((touches f).filterMap fun
    | (.phys r, _) => some r
    | _ => none)

def callPoints (f : Routine) : List Nat :=
  f.blocks.flatten.zipIdx.filterMap fun (m, i) => if m.isCall then some (2 * i + 1) else none

end DirectPage.Allocation
