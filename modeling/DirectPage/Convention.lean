import DirectPage.Error

/-! The calling convention: roles of registers, and where arguments and results live.

Caller and callee both ask this module, so they agree on every argument. -/
namespace DirectPage

/-- Holds the address of the local area in functions that need one. -/
def frameBase : Register := .general 29

/-- Overwritten when an address has to be computed. -/
def scratch : Register := .general 31

/-- Overwritten by float arithmetic whose destination is its right operand. -/
def floatScratch : Register := .float 15

def intArgRegs : List Register := [0, 1, 2, 3, 4, 5, 6, 7].map Register.general

def floatArgRegs : List Register := [0, 1, 2, 3, 4, 5, 6, 7].map Register.float

def intReturnRegs : List Register := [.general 0, .general 1]

def floatReturnReg : Register := .float 0

def calleeSaved : List Register :=
  [16, 17, 18, 19, 20, 21, 22, 23, 29, 30].map Register.general

def Register.isCalleeSaved (r : Register) : Bool := calleeSaved.contains r

def wordSize : Nat := 4

def returnAddressSize : Nat := 4

/-- From the stack pointer at entry to the first stack argument: the free word at the
stack pointer and the return address. -/
def incomingArgsOffset : Nat := wordSize + returnAddressSize

/-- Registers that are not assigned: a fixed set, and the frame base where it is live. -/
structure Reserved where
  frameBase : Bool
  deriving DecidableEq, Repr

namespace Reserved

def base : Reserved := ⟨false⟩

def withFrameBase : Reserved := ⟨true⟩

/-- Membership. Registers of the processor and numbers past a bank's end always belong. -/
def contains (s : Reserved) : Register → Bool
  | .general n =>
    decide (24 ≤ n ∧ n ≤ 28) || n == 31 || decide (56 ≤ n) || (s.frameBase && n == 29)
  | .float n => decide (15 ≤ n)
  | _ => true

/-- The members of a class that may be assigned, those a call overwrites first. -/
def allocatable (s : Reserved) (cls : RegClass) : List Register :=
  let free := cls.members.filter fun r => !s.contains r
  free.filter (fun r => !r.isCalleeSaved) ++ free.filter fun r => r.isCalleeSaved

end Reserved

def callClobbered : List Register :=
  (RegClass.gpr.members ++ RegClass.fpr.members).filter fun r =>
    !Reserved.base.contains r && !r.isCalleeSaved

/-- Where an argument lives; a stack offset counts from the start of the argument area. -/
inductive ArgLoc
  | reg (r : Register)
  | stack (offset size : Nat)
  deriving DecidableEq, Repr

structure ArgPlan where
  locs : List ArgLoc
  /-- Bytes of stack arguments. -/
  stackSize : Nat
  deriving DecidableEq, Repr

/-- The next free register of each bank and the stack bytes used so far. -/
structure ArgState where
  ints : List Register := intArgRegs
  floats : List Register := floatArgRegs
  stack : Nat := 0

namespace ArgState

def onStack (st : ArgState) (ty : Ir.Ty) : ArgLoc × ArgState :=
  (.stack st.stack ty.stackSize, { st with stack := st.stack + ty.stackSize })

/-- Place an argument. Variadic ones go on the stack, fixed ones in a register as long as
their bank has one. -/
def next (st : ArgState) (isFixed : Bool) (ty : Ir.Ty) : ArgLoc × ArgState :=
  if !isFixed then st.onStack ty
  else if ty.isFloat then
    match st.floats with
    | [] => st.onStack ty
    | r :: floats => (.reg r, { st with floats := floats })
  else
    match st.ints with
    | [] => st.onStack ty
    | r :: ints => (.reg r, { st with ints := ints })

def place (st : ArgState) : Nat → List Ir.Ty → ArgPlan
  | _, [] => ⟨[], st.stack⟩
  | fixed, ty :: rest =>
    let (loc, st) := st.next (0 < fixed) ty
    let plan := place st (fixed - 1) rest
    ⟨loc :: plan.locs, plan.stackSize⟩

end ArgState

/-- Places of arguments, of which the first `fixed` are fixed and the others variadic. -/
def assignArguments (types : List Ir.Ty) (fixed : Nat) : ArgPlan :=
  ArgState.place {} fixed types

/-- The same, with the bytes on the stack counted in 32 bits. They only add up, so the sum is
the first to leave them if any is. -/
def planArguments (types : List Ir.Ty) (fixed : Nat) : Checked ArgPlan := do
  let plan := assignArguments types fixed
  let _ ← unsigned32 plan.stackSize
  return plan

def assignReturns (types : List Ir.Ty) : Checked (List Register) :=
  match types with
  | [] => .ok []
  | [.f32] | [.f64] => .ok [floatReturnReg]
  | _ =>
    if types.length ≤ intReturnRegs.length && types.all Ir.Ty.isInteger then
      .ok (intReturnRegs.take types.length)
    else fail (.unsupportedFeature (.returns types))

structure RuntimeFunction where
  name : String
  params : List Ir.Ty
  ret : Option Ir.Ty
  deriving DecidableEq, Repr

namespace RuntimeFunction

def all : List RuntimeFunction :=
  [⟨"sbrk", [.i32], some .ptr⟩, ⟨"exit", [.i32], none⟩,
    ⟨"write", [.i32, .ptr, .i32], some .i32⟩, ⟨"read", [.i32, .ptr, .i32], some .i32⟩]

def named? (name : String) : Option RuntimeFunction := all.find? (·.name == name)

end RuntimeFunction

end DirectPage
