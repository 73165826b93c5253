import DirectPage.Double.Shortest
import DirectPage.Ir.Function

/-! The text form of functions. -/
namespace DirectPage.Ir

def commas (parts : List String) : String := ", ".intercalate parts

def valuesText (vs : List Value) : String := commas (vs.map valueText)

def Operand.text : Operand → String
  | value v => valueText v
  | imm k => "#" ++ k.text

def AddrBase.text : AddrBase → String
  | value v => valueText v
  | slot s => slotText s
  | global s => "@" ++ s.text

def Address.text (a : Address) : String := "[" ++ a.base.text ++ a.offset.offsetText ++ "]"

def Callee.text : Callee → String
  | direct name => "@" ++ name
  | indirect v => valueText v

/-- Arguments, with a mark in front of the first variadic one. -/
def argsText (numFixed : Option Nat) (args : List Value) : String :=
  commas (args.mapIdx fun i a => (if numFixed = some i then "... " else "") ++ valueText a)

namespace Inst

def assign (dst : Value) (rest : String) : String := valueText dst ++ " = " ++ rest

def text : Inst → String
  | const dst value => assign dst ("const " ++ value.text)
  | fconst dst value => assign dst ("fconst " ++ value.text)
  | copy dst src => assign dst ("copy " ++ valueText src)
  | binary op dst lhs rhs => assign dst (op.text ++ " " ++ commas [valueText lhs, rhs.text])
  | unary op dst src => assign dst (op.text ++ " " ++ valueText src)
  | fbinary op dst lhs rhs => assign dst ("f" ++ op.text ++ " " ++ valuesText [lhs, rhs])
  | funary op dst src => assign dst ("f" ++ op.text ++ " " ++ valueText src)
  | convert op dst src => assign dst (op.text ++ " " ++ valueText src)
  | setCc cc dst lhs rhs =>
    assign dst ("setcc " ++ cc.text ++ " " ++ commas [valueText lhs, rhs.text])
  | fsetCc cc dst lhs rhs => assign dst ("fsetcc " ++ cc.text ++ " " ++ valuesText [lhs, rhs])
  | select dst cond t f => assign dst ("select " ++ valuesText [cond, t, f])
  | selectCc cc dst lhs rhs t f =>
    assign dst ("select_cc " ++ cc.text ++ " "
      ++ commas [valueText lhs, rhs.text, valueText t, valueText f])
  | fselectCc cc dst lhs rhs t f =>
    assign dst ("fselect_cc " ++ cc.text ++ " " ++ valuesText [lhs, rhs, t, f])
  | shiftParts op dstLo dstHi lo hi amount =>
    valuesText [dstLo, dstHi] ++ " = " ++ op.text ++ " "
      ++ commas [valueText lo, valueText hi, amount.text]
  | load dst ty ext addr =>
    let mark := match ext with
      | .sign => "loads "
      | .zero => "load "
    assign dst (mark ++ ty.text ++ " " ++ addr.text)
  | store src ty addr => "store " ++ ty.text ++ " " ++ commas [valueText src, addr.text]
  | globalAddr dst symbol => assign dst ("global_addr @" ++ symbol.text)
  | externalSymbol dst name => assign dst ("external_symbol @" ++ name)
  | blockAddr dst block => assign dst ("block_addr " ++ blockText block)
  | slotAddr dst slot => assign dst ("slot_addr " ++ slotText slot)
  | frameAddr dst depth => assign dst ("frame_addr " ++ toString depth)
  | returnAddr dst depth => assign dst ("return_addr " ++ toString depth)
  | dynAlloca dst size align =>
    assign dst ("dyn_alloca " ++ commas [valueText size, "align " ++ toString align])
  | vaStart list => "va_start " ++ valueText list
  | call callee args numFixed results =>
    (if results.isEmpty then "" else valuesText results ++ " = ")
      ++ "call " ++ callee.text ++ "(" ++ argsText numFixed args ++ ")"

end Inst

def Terminator.text : Terminator → String
  | jump target => "jump " ++ blockText target
  | branch cond t e => "br " ++ commas [valueText cond, blockText t, blockText e]
  | branchCc cc lhs rhs t e =>
    "br_cc " ++ cc.text ++ " " ++ commas [valueText lhs, rhs.text, blockText t, blockText e]
  | fbranchCc cc lhs rhs t e =>
    "fbr_cc " ++ cc.text ++ " " ++ commas [valueText lhs, valueText rhs, blockText t, blockText e]
  | ret values => if values.isEmpty then "ret" else "ret " ++ valuesText values
  | unreachable => "unreachable"

namespace Function

def paramText (f : Function) (p : Value) : String :=
  match f.valueTypes[p]? with
  | some ty => valueText p ++ ": " ++ ty.text
  | none => valueText p

def headText (f : Function) : String :=
  "fn " ++ f.name ++ "(" ++ commas (f.params.map f.paramText)
    ++ (if f.variadic then ", ..." else "") ++ ")"
    ++ (if f.returns.isEmpty then "" else " -> " ++ commas (f.returns.map Ty.text)) ++ " \x7b"

def slotLine (i : Nat) (s : StackSlot) : String :=
  "    " ++ slotText i ++ " = stack_slot " ++ toString s.size ++ ", align " ++ toString s.align

def blockLines (i : Nat) (b : Block) : List String :=
  (blockText i ++ ":") :: (b.insts.map fun inst => "    " ++ inst.text)
    ++ ["    " ++ b.terminator.text]

def text (f : Function) : String :=
  "\n".intercalate
    (f.headText :: f.slots.mapIdx slotLine ++ (f.blocks.mapIdx blockLines).flatten ++ ["\x7d"])

end Function

end DirectPage.Ir
