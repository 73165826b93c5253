import DirectPage.Selection.Context

/-! Integer arithmetic and conversions. -/
namespace DirectPage.Selection

inductive Source
  | reg (r : Reg)
  | imm (k : Word)
  deriving DecidableEq, Repr

def source (f : Ir.Function) : Ir.Operand → Select Source
  | .value v => do return .reg (← reg f v)
  | .imm k => return .imm k

def aluOp? : Ir.BinOp → Option AluOp
  | .add => some .add
  | .sub => some .sub
  | .and => some .and
  | .or => some .or
  | .xor => some .xor
  | _ => none

def shiftKind? : Ir.BinOp → Option ShiftKind
  | .shl => some .shl
  | .lshr => some .lshr
  | .ashr => some .ashr
  | .rotl => some .rotl
  | .rotr => some .rotr
  | _ => none

def mulDivOp? : Ir.BinOp → Option MulDivOp
  | .mul => some .mul
  | .mulHs => some .mulHs
  | .mulHu => some .mulHu
  | .sdiv => some .sdiv
  | .udiv => some .udiv
  | .srem => some .srem
  | .urem => some .urem
  | _ => none

def unaryOp : Ir.UnOp → UnaryOp
  | .neg => .neg
  | .not => .not
  | .clz => .clz
  | .ctz => .ctz
  | .popcnt => .popcnt
  | .sext8 => .sext8
  | .sext16 => .sext16
  | .zext8 => .zext8
  | .zext16 => .zext16

/-- Whether an operation's low bits depend on the upper bits of its operands, and then
whether it reads them as signed. -/
def signedness? : Ir.BinOp → Option Bool
  | .sdiv | .srem | .ashr => some true
  | .udiv | .urem | .lshr => some false
  | _ => none

def extension? : Ir.Ty → Bool → Option UnaryOp
  | .i8, true => some .sext8
  | .i8, false => some .zext8
  | .i16, true => some .sext16
  | .i16, false => some .zext16
  | _, _ => none

def extendConstant (ext : UnaryOp) (k : Word) : Word :=
  match ext with
  | .sext8 => (k.setWidth 8).signExtend 32
  | .zext8 => (k.setWidth 8).setWidth 32
  | .sext16 => (k.setWidth 16).signExtend 32
  | _ => (k.setWidth 16).setWidth 32

def extend (ext : UnaryOp) (src : Reg) : Select Reg := do
  let t ← temp .gpr
  emit (.unary ext t src)
  return t

/-- Operands of a narrow operation as words. Counts are taken modulo 32 in any case. -/
def widen (op : Ir.BinOp) (ty : Ir.Ty) (lhs : Reg) (rhs : Source) : Select (Reg × Source) := do
  match signedness? op with
  | none => return (lhs, rhs)
  | some signed =>
    let ext ← orFail (.noLoweringRule op.name ty) (extension? ty signed)
    let wide ← extend ext lhs
    match op, rhs with
    | .ashr, _ | .lshr, _ => return (wide, rhs)
    | _, .reg r => return (wide, .reg (← extend ext r))
    | _, .imm k => return (wide, .imm (extendConstant ext k))

/-- An operation of the arithmetic unit. A constant is subtracted by adding its negation,
which may take one instruction less. -/
def emitAlu (op : AluOp) (d l : Reg) : Source → Select Unit
  | .reg r => emit (.alu op d l r)
  | .imm k =>
    if op = .sub ∧ k ≠ Word.minSigned then emit (.aluImm .add d l (-k)) else emit (.aluImm op d l k)

def Source.amount : Source → ShiftAmount
  | reg r => .reg r
  | imm k => .imm (UInt8.ofNat (k.toNat % 32))

def Source.inReg : Source → Select Reg
  | reg r => return r
  | imm k => do
    let t ← temp .gpr
    emit (.loadImm t k)
    return t

def binary (f : Ir.Function) (op : Ir.BinOp) (dst lhs : Ir.Value) (rhs : Ir.Operand) :
    Select Unit := do
  let ty ← f.valueType dst
  let act ← legal (.binary op) ty
  let d ← reg f dst
  let l ← reg f lhs
  let r ← source f rhs
  let (l, r) ← if act = .expand then widen op ty l r else pure (l, r)
  match aluOp? op, shiftKind? op, mulDivOp? op with
  | some alu, _, _ => emitAlu alu d l r
  | none, some kind, _ => emit (.shift kind d l r.amount)
  | none, none, some op => do emit (.mulDiv op d l (← r.inReg))
  | none, none, none => fail (.noLoweringRule op.name ty)

def unary (f : Ir.Function) (op : Ir.UnOp) (dst src : Ir.Value) : Select Unit := do
  let _ ← legal (.unary op) (← f.valueType dst)
  let d ← reg f dst
  let s ← reg f src
  emit (.unary (unaryOp op) d s)

def copy (f : Ir.Function) (dst src : Ir.Value) : Select Unit := do
  let dt ← f.valueType dst
  let st ← f.valueType src
  if dt.isFloat ≠ st.isFloat then fail (.noLoweringRule "copy between register banks" dt)
  let d ← reg f dst
  let s ← reg f src
  emit (.copy d s)

def funary (f : Ir.Function) (op : Ir.FUnOp) (dst src : Ir.Value) : Select Unit := do
  let _ ← legal (.funary op) (← f.valueType dst)
  let op : FUnaryOp := match op with
    | .neg => .neg
    | .abs => .abs
    | .sqrt => .sqrt
  let prec ← precision f dst
  let d ← reg f dst
  let s ← reg f src
  emit (.funary op prec d s)

def convert (f : Ir.Function) (op : Ir.ConvOp) (dst src : Ir.Value) : Select Unit := do
  let dt ← f.valueType dst
  let st ← f.valueType src
  let _ ← legal (.convert op) (if dt.isFloat then st else dt)
  let d ← reg f dst
  let s ← reg f src
  match op with
  | .fpToSi => emit (.ftoi (← precision f src) d s)
  | .siToFp => emit (.itof (← precision f dst) d s)
  | .fpExt | .fpTrunc => emit (.fconvert (← precision f dst) d s)
  | .bitcast =>
    match st, dt with
    | .f32, .i32 => emit (.floatBits d s)
    | .i32, .f32 => emit (.bitsFloat d s)
    | _, _ => fail (.noLoweringRule "bitcast" st)
  | .fpToUi | .uiToFp => fail (.unsupportedFeature (.conversion op.name))

end DirectPage.Selection
