import DirectPage.Convention
import DirectPage.Form.Instruction
import DirectPage.Ir.Description

/-! JSON forms of pseudo-operations: arrays that start with the operation. -/
namespace DirectPage.Form

def block? : Json → Option Ir.BlockId := Json.u32?

def shiftAmount? : Json → Option ShiftAmount
  | .str s => (reg? (.str s)).map .reg
  | j => j.u8?.map .imm

def memBase? : Json → Option MemBase
  | .arr (.str "frame" :: n :: _) => n.u32?.map .frame
  | .arr (.str "sp" :: _) => some .sp
  | .arr items => (symbol? (.arr items)).map .symbol
  | j => (reg? j).map .reg

def fmemBase? : Json → Option FMemBase
  | .arr items => (symbol? (.arr items)).map .symbol
  | j => (reg? j).map .reg

def addrTarget? : Json → Option AddrTarget
  | .arr (.str "block" :: b :: _) => (block? b).map .block
  | .arr (.str "pool" :: i :: _) => i.size?.map .pool
  | j => (symbol? j).map .symbol

def cmpRhs? : Json → Option (CmpRhs Reg)
  | .str s => (reg? (.str s)).map .reg
  | j => j.word?.map .imm

def compare? : Json → Option Compare
  | .arr (.str "int" :: cc :: lhs :: rhs :: _) => do
    return .int (← Ir.Description.cc? cc) (← reg? lhs) (← cmpRhs? rhs)
  | .arr (.str "float" :: cc :: prec :: lhs :: rhs :: _) => do
    return .float (← Ir.Description.fcc? cc) (← precision? prec) (← reg? lhs) (← reg? rhs)
  | _ => none

def callTarget? : Json → Option CallTarget
  | .arr (.str "direct" :: name :: _) => name.str?.map .symbol
  | .arr (.str "indirect" :: r :: _) => (reg? r).map .reg
  | _ => none

def registers? : Json → Option (List Register) := Json.list? register?

/-- Registers that a call overwrites; a word stands for those of the calling convention. -/
def clobbers? : Json → Option (List Register)
  | .str s => if s = "clobbered" then some callClobbered else none
  | j => registers? j

def dataPseudo? (name : String) (args : List Json) : Option Pseudo := do
  match name, args with
  | "LoadImm", d :: k :: _ => return .loadImm (← reg? d) (← k.word?)
  | "LoadAddr", d :: t :: _ => return .loadAddr (← reg? d) (← addrTarget? t)
  | "FrameAddr", d :: n :: k :: _ => return .frameAddr (← reg? d) (← n.u32?) (← k.word?)
  | "SpAddr", d :: k :: _ => return .spAddr (← reg? d) (← k.word?)
  | "Copy", d :: s :: _ => return .copy (← reg? d) (← reg? s)
  | "Alu", op :: d :: l :: r :: _ =>
    return .alu (← Json.named? AluOp.name AluOp.all op) (← reg? d) (← reg? l) (← reg? r)
  | "AluImm", op :: d :: l :: k :: _ =>
    return .aluImm (← Json.named? AluOp.name AluOp.all op) (← reg? d) (← reg? l) (← k.word?)
  | "MulDiv", op :: d :: l :: r :: _ =>
    return .mulDiv (← Json.named? MulDivOp.name MulDivOp.all op) (← reg? d) (← reg? l) (← reg? r)
  | "Shift", op :: d :: s :: n :: _ =>
    return .shift (← Json.named? ShiftKind.name ShiftKind.all op) (← reg? d) (← reg? s)
      (← shiftAmount? n)
  | "Unary", op :: d :: s :: _ =>
    return .unary (← Json.named? UnaryOp.name UnaryOp.all op) (← reg? d) (← reg? s)
  | "FAlu", op :: p :: d :: l :: r :: _ =>
    return .falu (← Json.named? FAluOp.name FAluOp.all op) (← precision? p) (← reg? d) (← reg? l)
      (← reg? r)
  | "FUnary", op :: p :: d :: s :: _ =>
    return .funary (← Json.named? FUnaryOp.name FUnaryOp.all op) (← precision? p) (← reg? d)
      (← reg? s)
  | "FToI", p :: d :: s :: _ => return .ftoi (← precision? p) (← reg? d) (← reg? s)
  | "IToF", p :: d :: s :: _ => return .itof (← precision? p) (← reg? d) (← reg? s)
  | "FConvert", p :: d :: s :: _ => return .fconvert (← precision? p) (← reg? d) (← reg? s)
  | "FBitsToInt", d :: s :: _ => return .floatBits (← reg? d) (← reg? s)
  | "IntBitsToF", d :: s :: _ => return .bitsFloat (← reg? d) (← reg? s)
  | "SelectCc", c :: d :: t :: e :: _ =>
    return .selectCc (← compare? c) (← reg? d) (← reg? t) (← reg? e)
  | _, _ => none

def otherPseudo? (name : String) (args : List Json) : Option Pseudo := do
  match name, args with
  | "Load", d :: w :: x :: b :: k :: _ =>
    return .load (← reg? d) (← Json.named? Width.name Width.all w)
      (← Json.named? Ir.Extension.name Ir.Extension.all x) (← memBase? b) (← k.word?)
  | "Store", s :: w :: b :: k :: _ =>
    return .store (← reg? s) (← Json.named? Width.name Width.all w) (← memBase? b) (← k.word?)
  | "FLoad", d :: p :: b :: _ => return .fload (← reg? d) (← precision? p) (← fmemBase? b)
  | "FStore", s :: p :: b :: _ => return .fstore (← reg? s) (← precision? p) (← fmemBase? b)
  | "DynAlloc", d :: s :: n :: _ => return .dynAlloc (← reg? d) (← reg? s) (← n.u32?)
  | "AdjCallStackDown", n :: _ => return .callStackDown (← n.u32?)
  | "AdjCallStackUp", n :: _ => return .callStackUp (← n.u32?)
  | "Call", t :: u :: c :: _ => return .call (← callTarget? t) (← registers? u) (← clobbers? c)
  | "BrCc", c :: b :: _ => return .brCc (← compare? c) (← block? b)
  | "Jump", b :: _ => return .jump (← block? b)
  | "Ret", u :: _ => return .ret (← registers? u)
  | "Trap", _ => return .trap
  | "Push", r :: _ => return .push (← register? r)
  | "Pop", r :: _ => return .pop (← register? r)
  | "SpAdjust", k :: _ => return .spAdjust (← k.word?)
  | "SetFrameBase", _ => return .setFrameBase
  | "RestoreSp", _ => return .restoreSp
  | _, _ => none

def pseudo? : Json → Option Pseudo
  | .arr (.str name :: args) => (dataPseudo? name args).orElse fun _ => otherPseudo? name args
  | _ => none

end DirectPage.Form
