import DirectPage.Ir.Value
import DirectPage.Register
import DirectPage.Relocation.Kind

/-! Causes of failure and their wording.

A computation ends in one of two ways other than a value: with an error that has
a text, or by an abort, which stands for an index out of range or an arithmetic
overflow and has none. -/
namespace DirectPage

namespace Ir

inductive InstFault
  | integerOnFloat (dst : Value)
  | floatOnInteger (dst : Value)
  | missingSlot (s : SlotId)
  | floatAddress (v : Value)
  | missingBlock (b : BlockId)
  | vaStart
  | alignment (n : Nat)
  deriving DecidableEq, Repr

def InstFault.text : InstFault → String
  | integerOnFloat dst => "integer operation on float " ++ valueText dst
  | floatOnInteger dst => "float operation on integer " ++ valueText dst
  | missingSlot s => "stack slot " ++ toString s ++ " does not exist"
  | floatAddress v => "float " ++ valueText v ++ " used as address"
  | missingBlock b => "address of missing " ++ blockText b
  | vaStart => "va_start in a non-variadic function"
  | alignment n => "alignment " ++ toString n ++ " is not a power of two"

inductive FunctionFault
  | noType (v : Value)
  | missingSlot (s : SlotId)
  | noBlocks
  | noFixedParam
  | inst (b : BlockId) (fault : InstFault)
  | missingTarget (b target : BlockId)
  | returnTypes (b : BlockId) (found expected : List Ty)
  | noTerminator (b : BlockId)
  deriving DecidableEq, Repr

def FunctionFault.text : FunctionFault → String
  | noType v => valueText v ++ " has no type"
  | missingSlot s => "stack slot " ++ toString s ++ " does not exist"
  | noBlocks => "function has no blocks"
  | noFixedParam => "variadic function needs a fixed parameter"
  | inst b fault => blockText b ++ ": " ++ fault.text
  | missingTarget b target => blockText b ++ " branches to missing " ++ blockText target
  | returnTypes b found expected =>
    blockText b ++ " returns " ++ tysText found ++ ", signature says " ++ tysText expected
  | noTerminator b => blockText b ++ " has no terminator"

end Ir

inductive InvalidInput
  | function (name : String) (fault : Ir.FunctionFault)
  | duplicateSymbol (name : String)
  | registerName (name : String)
  deriving DecidableEq, Repr

def InvalidInput.text : InvalidInput → String
  | function name fault => name ++ ": " ++ fault.text
  | duplicateSymbol name => "duplicate function symbol `" ++ name ++ "`"
  | registerName name => "invalid register name \"" ++ name ++ "\""

inductive Unsupported
  | operation (op : String) (ty : Ir.Ty)
  | conversion (op : String)
  | frameDepth (n : Nat)
  | returnDepth (n : Nat)
  | frameOffset (n : Nat)
  | alignment (n : Nat)
  | callFrame (n : Nat)
  | returns (types : List Ir.Ty)
  deriving DecidableEq, Repr

def Unsupported.text : Unsupported → String
  | operation op ty => op ++ " on " ++ ty.text ++ " is not supported by this target"
  | conversion op => op ++ " is not supported by this target"
  | frameDepth n =>
    "frame address at depth " ++ toString n ++ ": only the current frame is addressable"
  | returnDepth n =>
    "return address at depth " ++ toString n ++ ": only the current frame is addressable"
  | frameOffset n => "frame offset " ++ toString n ++ " too large"
  | alignment n => "alignment " ++ toString n
  | callFrame n => "call frame of " ++ toString n ++ " bytes"
  | returns types =>
    "return of " ++ toString types.length ++ " values (" ++ Ir.tysText types ++
      ") does not fit the return registers"

inductive SimFault
  | codeAreaFull
  | readOutOfMemory (len : Nat) (addr : Word)
  | writeOutOfMemory (addr : Word)
  | unresolvedLabel (l : Nat)
  | stepLimit
  | noInstruction (pc : Word)
  | brk (pc : Word)
  | unsupported (form op : String)
  | divisionByZero
  | ttaOperand
  deriving DecidableEq, Repr

def SimFault.text : SimFault → String
  | codeAreaFull => "code area full"
  | readOutOfMemory len addr =>
    "read of " ++ toString len ++ " bytes at " ++ hexText addr.toNat ++ " out of memory"
  | writeOutOfMemory addr => "write at " ++ hexText addr.toNat ++ " out of memory"
  | unresolvedLabel l => "unresolved label " ++ toString l
  | stepLimit => "step limit exceeded"
  | noInstruction pc => "no instruction at " ++ hexText pc.toNat
  | brk pc => "BRK at " ++ hexText pc.toNat
  | unsupported form op => "unsupported " ++ form ++ " " ++ op
  | divisionByZero => "division by zero"
  | ttaOperand => "TTA takes no operand"

inductive Defect
  | noSlot (r : Register)
  | noNumber (r : Register)
  | pastSectionEnd (kind : FixupKind) (offset : Nat)
  | symbolOffset (name : String)
  | sectionBase
  | vaStart (function : String)
  | shiftFold
  | noClass (v : Nat)
  | spilledNoClass (v : Nat)
  | spilledTemporary (v : Nat) (function : String)
  | spilledNoResult (v : Nat) (function : String)
  | spilledTerminator (function : String)
  | noConvergence (function : String) (rounds : Nat)
  | frameIndex (n : Nat)
  | frameOffset
  | noLabel (b : Nat)
  | blockAddress (b : Nat)
  | poolEntry (n : Nat)
  | branchTarget (b : Nat)
  | fixupTarget
  | crossBank (dst src : Register)
  | addressOverflow (symbol : SymbolRef) (offset : Word)
  | floatBase (r : Register)
  | alignment (n : Nat)
  | simulator (fault : SimFault)
  deriving DecidableEq, Repr

def Defect.text : Defect → String
  | noSlot r => r.text ++ " has no direct-page slot"
  | noNumber r => r.text ++ " has no register number"
  | pastSectionEnd kind offset =>
    kind.text ++ " fixup at " ++ hexText offset ++ " runs past the section end"
  | symbolOffset name => "symbol `" ++ name ++ "` offset overflows"
  | sectionBase => "section base overflows"
  | vaStart function => function ++ ": va_start without a vararg frame index"
  | shiftFold => "UGE #32 folded to a constant"
  | noClass v => "%" ++ toString v ++ " has no register class"
  | spilledNoClass v => "spilled %" ++ toString v ++ " has no register class"
  | spilledTemporary v function =>
    "spill temporary %" ++ toString v ++ " chosen for spilling in `" ++ function ++ "`"
  | spilledNoResult v function =>
    "spilled %" ++ toString v ++ " has no result slot in `" ++ function ++ "`"
  | spilledTerminator function => "terminator in `" ++ function ++ "` defines a spilled register"
  | noConvergence function rounds =>
    "register allocation for `" ++ function ++ "` did not converge after " ++ toString rounds ++
      " spill rounds"
  | frameIndex n => "frame index " ++ toString n ++ " out of range"
  | frameOffset => "frame offset overflow"
  | noLabel b => "block " ++ toString b ++ " has no label"
  | blockAddress b => "address of unknown block " ++ Ir.blockText b
  | poolEntry n => "unknown constant-pool entry " ++ toString n
  | branchTarget b => "branch to unknown block b" ++ toString b
  | fixupTarget => "fixup on an instruction that is no branch"
  | crossBank dst src => "copy between register banks: " ++ dst.text ++ " <- " ++ src.text
  | addressOverflow symbol offset =>
    "address " ++ symbol.text ++ "+" ++ offset.text ++ " overflows"
  | floatBase r => "float memory base " ++ r.text ++ " outside R0..R15"
  | alignment n => "alignment " ++ toString n ++ " is not a power of two"
  | simulator fault => "simulator: " ++ fault.text

inductive Error
  | internal (cause : Defect)
  | noLoweringRule (op : String) (ty : Ir.Ty)
  | registerClassExhausted (cls : RegClass) (function : String)
  | unassignedRegister (v : Nat)
  | unresolvedLabel (l : Nat)
  | unsupportedFeature (cause : Unsupported)
  | fixupOutOfRange (kind : FixupKind) (value : Int) (offset : Nat)
  | unknownRegister (name : String)
  | undefinedSymbol (name : String)
  | invalidInput (cause : InvalidInput)
  deriving DecidableEq, Repr

namespace Error

def kind : Error → String
  | internal _ => "Internal"
  | noLoweringRule .. => "NoLoweringRule"
  | registerClassExhausted .. => "RegisterClassExhausted"
  | unassignedRegister _ => "UnassignedRegister"
  | unresolvedLabel _ => "UnresolvedLabel"
  | unsupportedFeature _ => "UnsupportedFeature"
  | fixupOutOfRange .. => "FixupOutOfRange"
  | unknownRegister _ => "UnknownRegister"
  | undefinedSymbol _ => "UndefinedSymbol"
  | invalidInput _ => "InvalidInput"

def message : Error → String
  | internal cause => "Internal error: " ++ cause.text
  | noLoweringRule op ty => "No lowering rule for " ++ op ++ " on " ++ ty.text
  | registerClassExhausted cls function =>
    "Register class " ++ cls.text ++ " exhausted in function `" ++ function ++ "`"
  | unassignedRegister v =>
    "Virtual register %" ++ toString v ++ " reached expansion without a physical assignment"
  | unresolvedLabel l => "Unresolved label " ++ toString l
  | unsupportedFeature cause => "Unsupported feature: " ++ cause.text
  | fixupOutOfRange kind value offset =>
    "Fixup value " ++ toString value ++ " out of range for " ++ kind.text ++ " at offset " ++
      hexText offset
  | unknownRegister name => "Unknown register name `" ++ name ++ "`"
  | undefinedSymbol name => "Undefined symbol `" ++ name ++ "`"
  | invalidInput cause => "Invalid input: " ++ cause.text

end Error

/-- How a computation ends without a value. -/
inductive Failure
  | error (e : Error)
  | abort
  deriving DecidableEq, Repr

/-- A value, an error with a text, or an abort. -/
abbrev Checked := Except Failure

def fail {α : Type} (e : Error) : Checked α := .error (.error e)

def defect {α : Type} (cause : Defect) : Checked α := fail (.internal cause)

def abort {α : Type} : Checked α := .error .abort

def orFail {α : Type} (e : Error) : Option α → Checked α
  | some a => .ok a
  | none => fail e

/-- A count that must stay below `2 ^ 32`. -/
def unsigned32 (n : Nat) : Checked Nat := if n < 4294967296 then .ok n else abort

def unsigned64 (n : Nat) : Checked Nat := if n < 18446744073709551616 then .ok n else abort

def signed64 (i : Int) : Checked Int :=
  if -9223372036854775808 ≤ i ∧ i < 9223372036854775808 then .ok i else abort

namespace Register

def slot (r : Register) : Checked UInt8 := orFail (.internal (.noSlot r)) r.slot?

def number (r : Register) : Checked UInt8 :=
  match r with
  | general n => if n < 64 then .ok n else defect (.noNumber r)
  | float n => if n < 16 then .ok n else defect (.noNumber r)
  | _ => defect (.noNumber r)

end Register

end DirectPage
