import DirectPage.Ir.Function

/-! Building functions step by step.

A step that names a missing parameter, value or block aborts. -/
namespace DirectPage.Ir

/-- A function under construction, the blocks that have an end, and the block that
receives instructions. -/
structure Builder where
  function : Function
  terminated : List Bool := [false]
  current : BlockId := 0

namespace Builder

def new (name : String) (params returns : List Ty) (variadic : Bool) : Builder where
  function :=
    { name, returns, variadic
      params := List.range params.length
      blocks := [{}]
      valueTypes := params }

/-- Building steps keep the state that a failing step reached. -/
abbrev Step := EStateM Failure Builder

def edit (f : Function → Function) : Step Unit :=
  modify fun b => { b with function := f b.function }

def param (i : Nat) : Step Value := do
  match (← get).function.params[i]? with
  | some v => pure v
  | none => throw .abort

def newValue (ty : Ty) : Step Value := do
  let v := (← get).function.valueTypes.length
  edit fun f => { f with valueTypes := f.valueTypes ++ [ty] }
  pure v

def createBlock : Step BlockId := do
  let b := (← get).function.blocks.length
  edit fun f => { f with blocks := f.blocks ++ [{}] }
  modify fun s => { s with terminated := s.terminated ++ [false] }
  pure b

def switchTo (block : BlockId) : Step Unit := modify fun b => { b with current := block }

def stackSlot (size align : Nat) : Step SlotId := do
  let s := (← get).function.slots.length
  edit fun f => { f with slots := f.slots ++ [⟨size, align⟩] }
  pure s

def editBlock (change : Block → Block) : Step Unit := do
  let b ← get
  if b.current < b.function.blocks.length then
    edit fun f => { f with blocks := f.blocks.modify b.current change }
  else throw .abort

def push (inst : Inst) : Step Unit :=
  editBlock fun block => { block with insts := block.insts ++ [inst] }

def terminate (term : Terminator) : Step Unit := do
  editBlock fun block => { block with terminator := term }
  modify fun b => { b with terminated := b.terminated.set b.current true }

def typeOf (v : Value) : Step Ty := do
  match (← get).function.valueTypes[v]? with
  | some ty => pure ty
  | none => throw .abort

def define (ty : Ty) (inst : Value → Inst) : Step Value := do
  let dst ← newValue ty
  push (inst dst)
  pure dst

def defineLike (v : Value) (inst : Value → Inst) : Step Value := do
  define (← typeOf v) inst

def iconst (value : Word) : Step Value := define .i32 fun dst => .const dst value

def fconst (ty : Ty) (value : Double) : Step Value := define ty fun dst => .fconst dst value

def binary (op : BinOp) (lhs : Value) (rhs : Operand) : Step Value :=
  defineLike lhs fun dst => .binary op dst lhs rhs

def unary (op : UnOp) (src : Value) : Step Value := define .i32 fun dst => .unary op dst src

def fbinary (op : FBinOp) (lhs rhs : Value) : Step Value :=
  defineLike lhs fun dst => .fbinary op dst lhs rhs

def funary (op : FUnOp) (src : Value) : Step Value :=
  defineLike src fun dst => .funary op dst src

def convert (op : ConvOp) (src : Value) (ty : Ty) : Step Value :=
  define ty fun dst => .convert op dst src

def setCc (cc : CondCode) (lhs : Value) (rhs : Operand) : Step Value :=
  define .i32 fun dst => .setCc cc dst lhs rhs

def fsetCc (cc : FloatCond) (lhs rhs : Value) : Step Value :=
  define .i32 fun dst => .fsetCc cc dst lhs rhs

def select (cond onTrue onFalse : Value) : Step Value :=
  defineLike onTrue fun dst => .select dst cond onTrue onFalse

def selectCc (cc : CondCode) (lhs : Value) (rhs : Operand) (onTrue onFalse : Value) : Step Value :=
  defineLike onTrue fun dst => .selectCc cc dst lhs rhs onTrue onFalse

def load (ty : Ty) (ext : Extension) (addr : Address) : Step Value :=
  define (if ty.isFloat then ty else .i32) fun dst => .load dst ty ext addr

def store (src : Value) (ty : Ty) (addr : Address) : Step Unit := push (.store src ty addr)

def globalAddr (symbol : SymbolRef) : Step Value := define .ptr fun dst => .globalAddr dst symbol

def slotAddr (slot : SlotId) : Step Value := define .ptr fun dst => .slotAddr dst slot

def call (callee : Callee) (args : List Value) (returns : List Ty) : Step (List Value) := do
  let results ← returns.mapM newValue
  push (.call callee args none results)
  pure results

def jump (target : BlockId) : Step Unit := terminate (.jump target)

def ret (values : List Value) : Step Unit := terminate (.ret values)

def finish (b : Builder) : Checked Function := do
  match b.terminated.findIdx? (!·) with
  | some i => b.function.invalid (.noTerminator i)
  | none =>
    b.function.verify
    pure b.function

end Builder

end DirectPage.Ir
