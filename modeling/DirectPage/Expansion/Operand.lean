import DirectPage.Convention
import DirectPage.Instruction
import DirectPage.Pseudo

/-! Register operands of pseudo-operations as fields of instructions, and copies. -/
namespace DirectPage

namespace Reg

def assigned : Reg → Checked Register
  | phys r => .ok r
  | virt v => fail (.unassignedRegister v)

def slot (r : Reg) : Checked UInt8 := do (← r.assigned).slot

def number (r : Reg) : Checked UInt8 := do (← r.assigned).number

end Reg

namespace Expansion

abbrev Code := Checked (List Instruction)

def lda (slot : UInt8) : Instruction := .direct .ldaDp slot

def sta (slot : UInt8) : Instruction := .direct .staDp slot

def withConst (op : Opcode) (k : Word) : Instruction := .immediate op (.value k)

/-- Copy a register. Within the general bank the accumulator and the flags change. -/
def copy (dst src : Reg) : Code := do
  let rd ← dst.assigned
  let rs ← src.assigned
  if rd = rs then return []
  match rd.isFloat, rs.isFloat with
  | false, false =>
    let source ← rs.slot
    let target ← rd.slot
    return [lda source, sta target]
  | true, true =>
    let target ← rd.number
    let source ← rs.number
    return [.float .mov .double target source]
  | _, _ => defect (.crossBank rd rs)

def move (dst src : Reg) : Code := do
  let rd ← dst.assigned
  let rs ← src.assigned
  if rd = rs then return []
  if rd.isFloat && rs.isFloat then
    let target ← rd.number
    let source ← rs.number
    return [.float .mov .double target source]
  else
    let target ← rd.slot
    let source ← rs.slot
    return [.regAlu .movr target source]

end Expansion

end DirectPage
