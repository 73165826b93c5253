import DirectPage.Ir.Inst

/-! Which operations the target has on which types. -/
namespace DirectPage.Selection

inductive Operation
  | const | fconst
  | binary (op : Ir.BinOp)
  | unary (op : Ir.UnOp)
  | fbinary (op : Ir.FBinOp)
  | funary (op : Ir.FUnOp)
  | convert (op : Ir.ConvOp)
  | setCc | fsetCc | select | brCc | shiftParts | load | store
  | globalAddress | externalSymbol | blockAddress | constantPool | frameIndex | frameAddr
  | returnAddr | dynAlloc | vaStart | call | ret | formalArguments
  deriving DecidableEq, Repr

inductive Action
  /-- As one pseudo-operation. -/
  | legal
  /-- By a sequence of its own. -/
  | custom
  /-- On words, after its operands are widened. -/
  | expand
  /-- By a call. -/
  | libCall (name : String)
  | unsupported
  deriving DecidableEq, Repr

namespace Operation

def text : Operation → String
  | const => "Const" | fconst => "FConst"
  | binary op => op.name
  | unary op => op.name
  | fbinary op => "F" ++ op.name
  | funary op => "F" ++ op.name
  | convert op => op.name
  | setCc => "SetCc" | fsetCc => "FSetCc" | select => "Select" | brCc => "BrCc"
  | shiftParts => "ShiftParts" | load => "Load" | store => "Store"
  | globalAddress => "GlobalAddress" | externalSymbol => "ExternalSymbol"
  | blockAddress => "BlockAddress" | constantPool => "ConstantPool" | frameIndex => "FrameIndex"
  | frameAddr => "FrameAddr" | returnAddr => "ReturnAddr" | dynAlloc => "DynAlloc"
  | vaStart => "VaStart" | call => "Call" | ret => "Return" | formalArguments => "FormalArguments"

def plain : List Operation :=
  [const, fconst, setCc, fsetCc, select, brCc, shiftParts, load, store, globalAddress,
    externalSymbol, blockAddress, constantPool, frameIndex, frameAddr, returnAddr, dynAlloc,
    vaStart, call, ret, formalArguments]

end Operation

def isWord : Ir.Ty → Bool
  | .i32 | .ptr => true
  | _ => false

def isNarrow : Ir.Ty → Bool
  | .i8 | .i16 => true
  | _ => false

/-- Conversions, listed by their integer side or else their source. -/
def conversionAction? (op : Ir.ConvOp) (ty : Ir.Ty) : Option Action :=
  match op with
  | .fpToSi | .siToFp => if isWord ty then some .legal else none
  | .fpToUi | .uiToFp => if isWord ty then some .unsupported else none
  | .fpExt | .fpTrunc => if ty.isFloat then some .legal else none
  | .bitcast => if ty = .i32 ∨ ty = .f32 then some .legal else none

def binaryAction? (op : Ir.BinOp) (ty : Ir.Ty) : Option Action :=
  if isWord ty then some .legal
  else if isNarrow ty then
    match op with
    | .rotl | .rotr | .mulHs | .mulHu => none
    | _ => some .expand
  else none

def fbinaryAction? (op : Ir.FBinOp) (ty : Ir.Ty) : Option Action :=
  match op, ty with
  | .rem, .f32 => some (.libCall "fmodf")
  | .rem, .f64 => some (.libCall "fmod")
  | .rem, _ => none
  | _, ty => if ty.isFloat then some .legal else none

def action? (op : Operation) (ty : Ir.Ty) : Option Action :=
  match op with
  | .const => if ty.isInteger then some .legal else none
  | .fconst => if ty.isFloat then some .custom else none
  | .binary op => binaryAction? op ty
  | .unary _ => if isWord ty then some .legal else none
  | .fbinary op => fbinaryAction? op ty
  | .funary _ => if ty.isFloat then some .legal else none
  | .convert op => conversionAction? op ty
  | .setCc | .select | .brCc => some .custom
  | .fsetCc => if ty.isFloat then some .custom else none
  | .load | .store => some .legal
  | .call | .ret | .formalArguments => some .custom
  | .shiftParts | .globalAddress | .externalSymbol | .blockAddress | .constantPool | .frameIndex
  | .frameAddr | .returnAddr | .dynAlloc | .vaStart => if isWord ty then some .custom else none

def action (op : Operation) (ty : Ir.Ty) : Checked Action :=
  orFail (.noLoweringRule op.text ty) (action? op ty)

/-- How an operation on a type is carried out, with an error where it cannot be. -/
def legal (op : Operation) (ty : Ir.Ty) : Checked Action := do
  match ← action op ty with
  | .unsupported => fail (.unsupportedFeature (.operation op.text ty))
  | a => return a

end DirectPage.Selection
