import DirectPage.Ir.Function
import DirectPage.Selection.Legality

/-! What straight-line integer functions compute. Words wrap around, counts are taken modulo 32, and
division rounds towards zero and has no result where the divisor is zero. -/
namespace DirectPage.Ir

abbrev Env := Value → Word

def Env.set (env : Env) (v : Value) (w : Word) : Env := fun u => if u = v then w else env u

def Env.ofArgs (params : List Value) (args : List Word) : Env :=
  fun v => ((params.zip args).lookup v).getD 0#32

@[simp] theorem Env.set_self (env : Env) (v : Value) (w : Word) : env.set v w v = w := if_pos rfl

theorem Env.set_ne (env : Env) {u v : Value} (h : u ≠ v) (w : Word) : env.set v w u = env u := if_neg h

def Operand.eval (env : Env) : Operand → Word
  | value v => env v
  | imm k => k

def BinOp.eval (op : BinOp) (l r : Word) : Option Word :=
  match op with
  | add => some (l + r)
  | sub => some (l - r)
  | mul => some (l * r)
  | sdiv => if r = 0#32 then none else some (BitVec.ofInt 32 (l.toInt.tdiv r.toInt))
  | udiv => if r = 0#32 then none else some (BitVec.ofNat 32 (l.toNat / r.toNat))
  | srem => if r = 0#32 then none else some (BitVec.ofInt 32 (l.toInt.tmod r.toInt))
  | urem => if r = 0#32 then none else some (BitVec.ofNat 32 (l.toNat % r.toNat))
  | mulHs => some (BitVec.ofInt 32 (l.toInt * r.toInt / 4294967296))
  | mulHu => some (BitVec.ofNat 32 (l.toNat * r.toNat / 4294967296))
  | and => some (l &&& r)
  | or => some (l ||| r)
  | xor => some (l ^^^ r)
  | shl => some (l <<< (r.toNat % 32))
  | lshr => some (l >>> (r.toNat % 32))
  | ashr => some (l.sshiftRight (r.toNat % 32))
  | rotl => some (l.rotateLeft (r.toNat % 32))
  | rotr => some (l.rotateRight (r.toNat % 32))

def UnOp.eval (op : UnOp) (w : Word) : Word :=
  match op with
  | neg => -w
  | not => ~~~w
  | clz => BitVec.ofNat 32 ((List.range 32).takeWhile fun i => !w.getMsbD i).length
  | ctz => BitVec.ofNat 32 ((List.range 32).takeWhile fun i => !w.getLsbD i).length
  | popcnt => BitVec.ofNat 32 ((List.range 32).countP w.getLsbD)
  | sext8 => (w.setWidth 8).signExtend 32
  | sext16 => (w.setWidth 16).signExtend 32
  | zext8 => (w.setWidth 8).setWidth 32
  | zext16 => (w.setWidth 16).setWidth 32

namespace Inst

def isStraight : Inst → Bool
  | const .. | copy .. | binary .. | unary .. | setCc .. | select .. | selectCc .. => true
  | _ => false

def eval (env : Env) : Inst → Option Env
  | const dst value => some (env.set dst value)
  | copy dst src => some (env.set dst (env src))
  | binary op dst lhs rhs => (op.eval (env lhs) (rhs.eval env)).map (env.set dst)
  | unary op dst src => some (env.set dst (op.eval (env src)))
  | setCc cc dst lhs rhs =>
    some (env.set dst (if cc.holds (env lhs) (rhs.eval env) then 1#32 else 0#32))
  | select dst cond onTrue onFalse =>
    some (env.set dst (if env cond = 0#32 then env onFalse else env onTrue))
  | selectCc cc dst lhs rhs onTrue onFalse =>
    some (env.set dst (if cc.holds (env lhs) (rhs.eval env) then env onTrue else env onFalse))
  | _ => none

def evalAll : Env → List Inst → Option Env
  | env, [] => some env
  | env, i :: rest => (i.eval env).bind (evalAll · rest)

/-- Whether every value is assigned before it is read, `known` being assigned at the start and `read` read at
the end. -/
def assigns : List Value → List Inst → List Value → Bool
  | known, [], read => read.all known.contains
  | known, i :: rest, read => i.uses.all known.contains && assigns (i.defs ++ known) rest read

end Inst

/-- A function of one block that computes words from its parameters and returns some of them. -/
structure Function.StraightLine (f : Function) (insts : List Inst) (results : List Value) : Prop where
  blocks : f.blocks = [⟨insts, .ret results⟩]
  words : ∀ ty ∈ f.valueTypes, Selection.isWord ty = true
  params_nodup : f.params.Nodup
  straight : ∀ i ∈ insts, i.isStraight = true
  assigned : Inst.assigns f.params insts results = true

end DirectPage.Ir
