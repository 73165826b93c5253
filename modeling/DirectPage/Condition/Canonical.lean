import DirectPage.Condition

/-! Compares brought to relations that one branch tests. -/
namespace DirectPage

inductive CmpRhs (R : Type)
  | reg (r : R)
  | imm (k : Word)
  deriving DecidableEq, Repr

inductive Canonical (R : Type)
  | compare (cc : CondCode) (lhs : R) (rhs : CmpRhs R)
  | constant (b : Bool)
  deriving DecidableEq, Repr

def Canonical.raised {R : Type} (cc : CondCode) (lhs : R) (k largest : Word) (atLargest : Bool) :
    Canonical R :=
  if k = largest then .constant atLargest else .compare cc lhs (.imm (k + 1#32))

/-- An equivalent compare whose relation one branch tests. Registers are swapped;
a constant stays on the right, so `> k` becomes `≥ k + 1`. -/
def canonicalize {R : Type} (cc : CondCode) (lhs : R) (rhs : CmpRhs R) : Canonical R :=
  match rhs with
  | .reg r => if cc.isNative then .compare cc lhs rhs else .compare cc.swap r (.reg lhs)
  | .imm k =>
    match cc with
    | .gt => Canonical.raised .ge lhs k Word.maxSigned false
    | .le => Canonical.raised .lt lhs k Word.maxSigned true
    | .ugt => Canonical.raised .uge lhs k (-1#32) false
    | .ule => Canonical.raised .ult lhs k (-1#32) true
    | _ => .compare cc lhs rhs

def canonicalizeFloat {R : Type} (cc : FloatCond) (lhs rhs : R) : FloatCond × R × R :=
  if !cc.isNative && cc.swap.isNative then (cc.swap, rhs, lhs) else (cc, lhs, rhs)

end DirectPage
