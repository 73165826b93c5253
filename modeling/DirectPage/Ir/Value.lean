import DirectPage.Opcode

/-! Value types and the numbering of values, blocks and stack slots.

There are no 64-bit integers: a pair of words stands for one. -/
namespace DirectPage.Ir

inductive Ty
  | i8 | i16 | i32 | ptr | f32 | f64
  deriving DecidableEq, Repr

namespace Ty

def isInteger : Ty → Bool
  | i8 | i16 | i32 | ptr => true
  | f32 | f64 => false

def isFloat : Ty → Bool
  | f32 | f64 => true
  | _ => false

def bytes : Ty → Nat
  | i8 => 1
  | i16 => 2
  | i32 | ptr | f32 => 4
  | f64 => 8

/-- Size as a stack argument; narrow integers take a word. -/
def stackSize : Ty → Nat
  | f64 => 8
  | _ => 4

def precision? : Ty → Option Precision
  | f32 => some .single
  | f64 => some .double
  | _ => none

def text : Ty → String
  | i8 => "i8" | i16 => "i16" | i32 => "i32" | ptr => "ptr" | f32 => "f32" | f64 => "f64"

def name : Ty → String
  | i8 => "I8" | i16 => "I16" | i32 => "I32" | ptr => "Ptr" | f32 => "F32" | f64 => "F64"

def all : List Ty := [i8, i16, i32, ptr, f32, f64]

end Ty

def tysText (ts : List Ty) : String := "[" ++ ", ".intercalate (ts.map Ty.name) ++ "]"

/-- A value, by number. It may be assigned more than once. -/
abbrev Value := Nat

abbrev BlockId := Nat

abbrev SlotId := Nat

def valueText (v : Value) : String := "v" ++ toString v

def blockText (b : BlockId) : String := "bb" ++ toString b

def slotText (s : SlotId) : String := "ss" ++ toString s

end DirectPage.Ir
