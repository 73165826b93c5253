import DirectPage.Compiler
import DirectPage.Simulator.Step

/-! Loading functions and calling them. -/
namespace DirectPage

inductive Arg
  | i32 (w : Word)
  | f32 (bits : Word)
  | f64 (x : Double)
  deriving DecidableEq, Repr

namespace Arg

def ty : Arg → Ir.Ty
  | i32 _ => .i32
  | f32 _ => .f32
  | f64 _ => .f64

def bytes : Arg → List UInt8
  | i32 w => w.bytes
  | f32 bits => (Double.ofSingleBits bits).bytesIn .single
  | f64 x => x.bytes

end Arg

structure Returned where
  r0 : Word
  r1 : Word
  f0 : Double
  sp : Word
  steps : Nat
  deriving DecidableEq, Repr

namespace Machine

def placeCode (code : AddressMap (Option Instruction) 32) (addr : Nat) :
    List Instruction → AddressMap (Option Instruction) 32
  | [] => code
  | i :: rest => placeCode (code.set addr (some i)) (addr + i.size) rest

def load (m : Machine) (f : EncodedFunction) : Checked (Word × Machine) := do
  let base := alignUp m.nextCode 4
  let stop := base + f.code.length
  if dataBase ≤ stop then fault .codeAreaFull
  let addr := BitVec.ofNat 32 base
  return (addr, { m with
    memory := m.memory.putAt base f.code
    code := placeCode m.code base f.instructions
    symbols := (f.name, addr) :: m.symbols
    nextCode := stop })

def addGlobal (m : Machine) (name : String) (bytes : List UInt8) : Checked (Word × Machine) := do
  let base := alignUp m.nextData 8
  let stop := base + bytes.length
  if memorySize < stop then abort
  let addr := BitVec.ofNat 32 base
  return (addr, { m with
    memory := m.memory.putAt base bytes
    nextData := stop
    symbols := (name, addr) :: m.symbols })

def passArg (m : Machine) (arg : Arg) (loc : ArgLoc) : Checked Machine :=
  match loc, arg with
  | .stack offset _, arg =>
    m.writeBytes (stackTop + BitVec.ofNat 32 (returnAddressSize + offset)) arg.bytes
  | .reg (.float n), .f32 w => .ok (m.setFpr n (.ofSingleBits w))
  | .reg (.float n), .f64 x => .ok (m.setFpr n x)
  | .reg r, arg => do m.writeBytes (slotAddr (← r.slot)) arg.bytes

abbrev Ran (α : Type) := Machine × Checked α

def passArgs : Machine → List (Arg × ArgLoc) → Ran Unit
  | m, [] => (m, .ok ())
  | m, (arg, loc) :: rest =>
    match m.passArg arg loc with
    | .error e => (m, .error e)
    | .ok m => passArgs m rest

/-- Execute at most `left` instructions more, until the program counter is at the return
address of the run. -/
def runFrom (left steps : Nat) (m : Machine) : Ran Nat :=
  if m.pc = returnSentinel then (m, .ok steps)
  else
    match left with
    | 0 => (m, fault .stepLimit)
    | left + 1 =>
      match m.step with
      | .error e => (m, .error e)
      | .ok m => runFrom left (steps + 1) m

def returned (m : Machine) (steps : Nat) : Returned := ⟨m.gpr 0, m.gpr 1, m.fpr 0, m.sp, steps⟩

def enter (m : Machine) (entry : Word) : Checked Machine := do
  return { ← m.push returnSentinel with pc := entry }

def call (m : Machine) (name : String) (args : List Arg) : Ran Returned :=
  match m.symbols.lookup name with
  | none => (m, fail (.undefinedSymbol name))
  | some entry =>
    match planArguments (args.map Arg.ty) args.length with
    | .error e => (m, .error e)
    | .ok plan =>
      match { m with sp := stackTop }.passArgs (args.zip plan.locs) with
      | (m, .error e) => (m, .error e)
      | (m, .ok ()) =>
        match m.enter entry with
        | .error e => (m, .error e)
        | .ok m =>
          match runFrom stepLimit 0 m with
          | (m, .error e) => (m, .error e)
          | (m, .ok steps) => (m, .ok (m.returned steps))

end Machine

def runFunctions (fs : List Ir.Function) (options : Options) (entry : String) (args : List Arg) :
    Checked Returned := do
  let m ← fs.foldlM (fun m f => do return (← m.load (← f.compile options)).2) ({} : Machine)
  (m.call entry args).2

end DirectPage
