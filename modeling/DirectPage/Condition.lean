import DirectPage.Opcode
import DirectPage.Word

/-! Branch conditions, status flags and relations between operands.

The processor branches on one flag at a time, so a relation is tested by a short
plan of branches. -/
namespace DirectPage

inductive BranchCond
  | eq | ne | cs | cc | mi | pl | vs | vc
  deriving DecidableEq, Repr

/-- Zero, negative, carry and overflow. -/
structure Flags where
  z : Bool := false
  n : Bool := false
  c : Bool := false
  v : Bool := false
  deriving DecidableEq, Repr

def Flags.compare (lhs rhs : Word) : Flags where
  z := lhs == rhs
  n := lhs.slt rhs
  c := rhs.ule lhs
  v := false

/-- Flags after a float compare; an unordered pair sets overflow alone. -/
def Flags.floatCompare (lhs rhs : Float) : Flags :=
  let unordered := lhs.isNaN || rhs.isNaN
  { z := !unordered && lhs == rhs
    n := !unordered && lhs < rhs
    c := !unordered && lhs >= rhs
    v := unordered }

namespace BranchCond

def invert : BranchCond → BranchCond
  | eq => ne | ne => eq | cs => cc | cc => cs | mi => pl | pl => mi | vs => vc | vc => vs

def opcode : BranchCond → Opcode
  | eq => .beq | ne => .bne | cs => .bcs | cc => .bcc | mi => .bmi | pl => .bpl | vs => .bvs
  | vc => .bvc

def taken (cond : BranchCond) (flags : Flags) : Bool :=
  match cond with
  | eq => flags.z | ne => !flags.z | cs => flags.c | cc => !flags.c | mi => flags.n
  | pl => !flags.n | vs => flags.v | vc => !flags.v

def text : BranchCond → String
  | eq => "BEQ" | ne => "BNE" | cs => "BCS" | cc => "BCC" | mi => "BMI" | pl => "BPL" | vs => "BVS"
  | vc => "BVC"

def all : List BranchCond := [eq, ne, cs, cc, mi, pl, vs, vc]

end BranchCond

inductive Dest
  | target | skip
  deriving DecidableEq, Repr

/-- One branch of a plan; without a condition it is always taken. -/
structure BranchStep where
  cond : Option BranchCond
  dest : Dest
  deriving DecidableEq, Repr

abbrev Plan := List BranchStep

/-- Whether a plan reaches its target. Running off the end skips. -/
def Plan.taken : Plan → Flags → Bool
  | [], _ => false
  | step :: rest, flags =>
    let goes := match step.cond with
      | none => true
      | some cond => cond.taken flags
    if goes then step.dest == .target else Plan.taken rest flags

def Plan.isNative : Plan → Bool
  | [⟨some _, .target⟩] => true
  | _ => false

namespace BranchStep

def onto (cond : BranchCond) : BranchStep := ⟨some cond, .target⟩

def past (cond : BranchCond) : BranchStep := ⟨some cond, .skip⟩

def always : BranchStep := ⟨none, .target⟩

end BranchStep

open BranchStep

inductive CondCode
  | eq | ne | lt | le | gt | ge | ult | ule | ugt | uge
  deriving DecidableEq, Repr

namespace CondCode

def holds (cc : CondCode) (lhs rhs : Word) : Bool :=
  match cc with
  | eq => lhs == rhs
  | ne => lhs != rhs
  | lt => lhs.slt rhs
  | le => lhs.sle rhs
  | gt => rhs.slt lhs
  | ge => rhs.sle lhs
  | ult => lhs.ult rhs
  | ule => lhs.ule rhs
  | ugt => rhs.ult lhs
  | uge => rhs.ule lhs

def invert : CondCode → CondCode
  | eq => ne | ne => eq | lt => ge | ge => lt | gt => le | le => gt | ult => uge | uge => ult
  | ugt => ule | ule => ugt

def swap : CondCode → CondCode
  | eq => eq | ne => ne | lt => gt | gt => lt | le => ge | ge => le | ult => ugt | ugt => ult
  | ule => uge | uge => ule

def plan : CondCode → Plan
  | eq => [onto .eq]
  | ne => [onto .ne]
  | lt => [onto .mi]
  | ge => [onto .pl]
  | ult => [onto .cc]
  | uge => [onto .cs]
  | gt => [past .eq, past .mi, always]
  | le => [onto .eq, onto .mi]
  | ugt => [past .eq, onto .cs]
  | ule => [onto .eq, onto .cc]

def isNative (cc : CondCode) : Bool := cc.plan.isNative

def text : CondCode → String
  | eq => "eq" | ne => "ne" | lt => "lt" | le => "le" | gt => "gt" | ge => "ge" | ult => "ult"
  | ule => "ule" | ugt => "ugt" | uge => "uge"

def all : List CondCode := [eq, ne, lt, le, gt, ge, ult, ule, ugt, uge]

end CondCode

/-- Relations between floats: the ordered ones fail on an unordered pair, the
unordered ones hold. -/
inductive FloatCond
  | oeq | one | olt | ole | ogt | oge | ord | uno | ueq | une | ult | ule | ugt | uge
  deriving DecidableEq, Repr

namespace FloatCond

def holds (cc : FloatCond) (lhs rhs : Float) : Bool :=
  let unordered := lhs.isNaN || rhs.isNaN
  match cc with
  | oeq => !unordered && lhs == rhs
  | one => !unordered && lhs != rhs
  | olt => !unordered && lhs < rhs
  | ole => !unordered && lhs <= rhs
  | ogt => !unordered && lhs > rhs
  | oge => !unordered && lhs >= rhs
  | ord => !unordered
  | uno => unordered
  | ueq => unordered || lhs == rhs
  | une => unordered || lhs != rhs
  | ult => unordered || lhs < rhs
  | ule => unordered || lhs <= rhs
  | ugt => unordered || lhs > rhs
  | uge => unordered || lhs >= rhs

def invert : FloatCond → FloatCond
  | oeq => une | une => oeq | one => ueq | ueq => one | olt => uge | uge => olt | ole => ugt
  | ugt => ole | ogt => ule | ule => ogt | oge => ult | ult => oge | ord => uno | uno => ord

def swap : FloatCond → FloatCond
  | olt => ogt | ogt => olt | ole => oge | oge => ole | ult => ugt | ugt => ult | ule => uge
  | uge => ule | oeq => oeq | one => one | ord => ord | uno => uno | ueq => ueq | une => une

def plan : FloatCond → Plan
  | oeq => [onto .eq]
  | une => [onto .ne]
  | olt => [onto .mi]
  | uge => [onto .pl]
  | oge => [onto .cs]
  | ult => [onto .cc]
  | ord => [onto .vc]
  | uno => [onto .vs]
  | ogt => [past .mi, past .eq, onto .cs]
  | ole => [onto .eq, onto .mi]
  | ugt => [past .mi, past .eq, always]
  | ule => [onto .eq, onto .mi, onto .vs]
  | one => [past .eq, past .vs, always]
  | ueq => [onto .eq, onto .vs]

def isNative (cc : FloatCond) : Bool := cc.plan.isNative

def text : FloatCond → String
  | oeq => "oeq" | one => "one" | olt => "olt" | ole => "ole" | ogt => "ogt" | oge => "oge"
  | ord => "ord" | uno => "uno" | ueq => "ueq" | une => "une" | ult => "ult" | ule => "ule"
  | ugt => "ugt" | uge => "uge"

def all : List FloatCond :=
  [oeq, one, olt, ole, ogt, oge, ord, uno, ueq, une, ult, ule, ugt, uge]

end FloatCond

end DirectPage
