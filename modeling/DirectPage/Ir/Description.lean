import DirectPage.Ir.Function
import DirectPage.Json

/-! Functions described in JSON.

A description that lacks a required member, repeats one, or holds a value of the wrong
kind is refused. Members that nothing asks for are ignored, whatever they hold; only
instructions and terminators have to be readable throughout. -/
namespace DirectPage.Ir.Description

abbrev Members := List (String × Json)

/-- The only member with a name; `none` inside when there is none, refused when there
are two. -/
def find? (ms : Members) (name : String) : Option (Option Json) :=
  match ms.filter fun p => p.1 == name with
  | [] => some none
  | [(_, j)] => some (some j)
  | _ => none

def required {α : Type} (ms : Members) (name : String) (read : Json → Option α) : Option α := do
  (← find? ms name).bind read

def optional {α : Type} (ms : Members) (name : String) (default : α) (read : Json → Option α) :
    Option α := do
  match ← find? ms name with
  | none => some default
  | some j => read j

/-- A name out of a table, as a string or as the only member of an object, with null behind
it. -/
def choice? {α : Type} (key : α → String) (all : List α) : Json → Option α
  | .str s => all.find? fun a => key a == s
  | .obj [(s, .null)] => all.find? fun a => key a == s
  | _ => none

/-- A name out of a table inside an instruction, where an empty object may stand for null. -/
def nested? {α : Type} (key : α → String) (all : List α) : Json → Option α
  | .obj [(s, .obj [])] => all.find? fun a => key a == s
  | j => choice? key all j

def variant? : Json → Option (String × Json)
  | .obj [m] => some m
  | _ => none

def ty? : Json → Option Ty := choice? Ty.text Ty.all

def cc? : Json → Option CondCode := choice? CondCode.text CondCode.all

def fcc? : Json → Option FloatCond := choice? FloatCond.text FloatCond.all

def values? : Json → Option (List Value) := Json.list? Json.u32?

def operand? (j : Json) : Option Operand := do
  let (kind, body) ← variant? j
  if kind = "value" then body.u32?.map .value
  else if kind = "imm" then body.word?.map .imm
  else none

def symbol? (j : Json) : Option SymbolRef := do
  let ms ← j.obj?
  return ⟨← required ms "name" Json.str?, ← required ms "addend" Json.word?⟩

def addrBase? (j : Json) : Option AddrBase := do
  let (kind, body) ← variant? j
  if kind = "value" then body.u32?.map .value
  else if kind = "slot" then body.u32?.map .slot
  else if kind = "global" then (symbol? body).map .global
  else none

def address? (j : Json) : Option Address := do
  let ms ← j.obj?
  return ⟨← required ms "base" addrBase?, ← optional ms "offset" 0#32 Json.word?⟩

def callee? (j : Json) : Option Callee := do
  let (kind, body) ← variant? j
  if kind = "direct" then body.str?.map .direct
  else if kind = "indirect" then body.u32?.map .indirect
  else none

def double? : Json → Option Double
  | .int n => some (.ofFloat (Float.ofInt n))
  | .real x => some x
  | _ => none

def count? : Json → Option (Option Nat)
  | .null => some none
  | j => j.u64?.map some

def tag? (ms : Members) (name : String) : Option String := required ms name Json.str?

def inst? (j : Json) : Option Inst := do
  guard j.isReadable
  let ms ← j.obj?
  let v (name : String) := required ms name Json.u32?
  let cc := required ms "cc" (nested? CondCode.text CondCode.all)
  let fcc := required ms "cc" (nested? FloatCond.text FloatCond.all)
  let rhs := required ms "rhs" operand?
  let addr := required ms "addr" address?
  let ty := required ms "ty" (nested? Ty.text Ty.all)
  match ← tag? ms "inst" with
  | "const" => return .const (← v "dst") (← required ms "value" Json.word?)
  | "f_const" => return .fconst (← v "dst") (← required ms "value" double?)
  | "copy" => return .copy (← v "dst") (← v "src")
  | "binary" =>
    return .binary (← required ms "op" (nested? BinOp.text BinOp.all)) (← v "dst") (← v "lhs")
      (← rhs)
  | "unary" =>
    return .unary (← required ms "op" (nested? UnOp.key UnOp.all)) (← v "dst") (← v "src")
  | "f_binary" =>
    return .fbinary (← required ms "op" (nested? FBinOp.text FBinOp.all)) (← v "dst") (← v "lhs")
      (← v "rhs")
  | "f_unary" =>
    return .funary (← required ms "op" (nested? FUnOp.text FUnOp.all)) (← v "dst") (← v "src")
  | "convert" =>
    return .convert (← required ms "op" (nested? ConvOp.text ConvOp.all)) (← v "dst") (← v "src")
  | "set_cc" => return .setCc (← cc) (← v "dst") (← v "lhs") (← rhs)
  | "f_set_cc" => return .fsetCc (← fcc) (← v "dst") (← v "lhs") (← v "rhs")
  | "select" => return .select (← v "dst") (← v "cond") (← v "on_true") (← v "on_false")
  | "select_cc" =>
    return .selectCc (← cc) (← v "dst") (← v "lhs") (← rhs) (← v "on_true") (← v "on_false")
  | "f_select_cc" =>
    return .fselectCc (← fcc) (← v "dst") (← v "lhs") (← v "rhs") (← v "on_true") (← v "on_false")
  | "shift_parts" =>
    return .shiftParts (← required ms "op" (nested? ShiftPartsOp.key ShiftPartsOp.all))
      (← v "dst_lo") (← v "dst_hi") (← v "lo") (← v "hi") (← required ms "amount" operand?)
  | "load" =>
    return .load (← v "dst") (← ty)
      (← optional ms "ext" .zero (nested? Extension.key Extension.all)) (← addr)
  | "store" => return .store (← v "src") (← ty) (← addr)
  | "global_addr" => return .globalAddr (← v "dst") (← required ms "symbol" symbol?)
  | "external_symbol" => return .externalSymbol (← v "dst") (← required ms "name" Json.str?)
  | "block_addr" => return .blockAddr (← v "dst") (← v "block")
  | "slot_addr" => return .slotAddr (← v "dst") (← v "slot")
  | "frame_addr" => return .frameAddr (← v "dst") (← v "depth")
  | "return_addr" => return .returnAddr (← v "dst") (← v "depth")
  | "dyn_alloca" => return .dynAlloca (← v "dst") (← v "size") (← v "align")
  | "va_start" => return .vaStart (← v "list")
  | "call" =>
    return .call (← required ms "callee" callee?) (← required ms "args" values?)
      (← optional ms "num_fixed" none count?) (← optional ms "results" [] values?)
  | _ => none

def terminator? (j : Json) : Option Terminator := do
  guard j.isReadable
  let ms ← j.obj?
  let v (name : String) := required ms name Json.u32?
  let cc := required ms "cc" (nested? CondCode.text CondCode.all)
  let fcc := required ms "cc" (nested? FloatCond.text FloatCond.all)
  match ← tag? ms "term" with
  | "jump" => return .jump (← v "target")
  | "branch" => return .branch (← v "cond") (← v "then_block") (← v "else_block")
  | "branch_cc" =>
    return .branchCc (← cc) (← v "lhs") (← required ms "rhs" operand?) (← v "then_block")
      (← v "else_block")
  | "f_branch_cc" =>
    return .fbranchCc (← fcc) (← v "lhs") (← v "rhs") (← v "then_block") (← v "else_block")
  | "return" => return .ret (← optional ms "values" [] values?)
  | "unreachable" => return .unreachable
  | _ => none

def block? (j : Json) : Option Block := do
  let ms ← j.obj?
  return ⟨← optional ms "insts" [] (Json.list? inst?), ← required ms "terminator" terminator?⟩

def slot? (j : Json) : Option StackSlot := do
  let ms ← j.obj?
  return ⟨← required ms "size" Json.u32?, ← required ms "align" Json.u32?⟩

def function? (j : Json) : Option Function := do
  let ms ← j.obj?
  return {
    name := ← required ms "name" Json.str?
    params := ← required ms "params" values?
    returns := ← optional ms "returns" [] (Json.list? ty?)
    variadic := ← optional ms "variadic" false Json.bool?
    blocks := ← required ms "blocks" (Json.list? block?)
    valueTypes := ← required ms "value_types" (Json.list? ty?)
    slots := ← optional ms "slots" [] (Json.list? slot?) }

def module? (j : Json) : Option (List Function) := do
  required (← j.obj?) "functions" (Json.list? function?)

end DirectPage.Ir.Description
