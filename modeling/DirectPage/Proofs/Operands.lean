import DirectPage.Routine

/-! The registers that an operation reads and writes, before and after assignment. -/
namespace DirectPage

namespace Pseudo

variable {g : Reg → Reg}

private theorem map_phys (hg : ∀ r, g (.phys r) = .phys r) (rs : List Register) :
    (rs.map Reg.phys).map g = rs.map Reg.phys := by
  simp [hg]

/-- Renaming the operands of an operation renames what it reads, one by one. -/
theorem uses_mapRegs (hg : ∀ r, g (.phys r) = .phys r) (m : Pseudo) :
    (m.mapRegs g).uses = m.uses.map g := by
  have hm := map_phys hg
  cases m with
  | shift _ _ _ x | load _ _ _ x | store _ _ x | fload _ _ x | fstore _ _ x => cases x <;> rfl
  | selectCc cmp | brCc cmp => rcases cmp with ⟨_, _, _ | _⟩ | _ <;> rfl
  | call target args clobbers => cases target <;> simp [mapRegs, uses, hg]
  | ret results => exact (hm results).symm
  | push reg => exact (hm [reg]).symm
  | _ => rfl

/-- Renaming the operands of an operation renames what it writes. -/
theorem defs_mapRegs (hg : ∀ r, g (.phys r) = .phys r) (m : Pseudo) :
    (m.mapRegs g).defs = m.defs.map g := by
  have hm := map_phys hg
  cases m with
  | call target args clobbers => cases target <;> exact (hm clobbers).symm
  | pop reg => exact (hm [reg]).symm
  | _ => rfl

theorem mapRegs_mapRegs (g h : Reg → Reg) (m : Pseudo) : (m.mapRegs g).mapRegs h = m.mapRegs (h ∘ g) := by
  cases m with
  | shift _ _ _ x | load _ _ _ x | store _ _ x | fload _ _ x | fstore _ _ x | call x => cases x <;> rfl
  | selectCc cmp | brCc cmp => rcases cmp with ⟨_, _, _ | _⟩ | _ <;> rfl
  | _ => rfl

theorem mapRegs_id (m : Pseudo) : m.mapRegs id = m := by
  cases m with
  | shift _ _ _ x | load _ _ _ x | store _ _ x | fload _ _ x | fstore _ _ x | call x => cases x <;> rfl
  | selectCc cmp | brCc cmp => rcases cmp with ⟨_, _, _ | _⟩ | _ <;> rfl
  | _ => rfl

theorem withDst_mapRegs (d : Reg) (g : Reg → Reg) (m : Pseudo) :
    (m.withDst d).mapRegs g = (m.mapRegs g).withDst (g d) := by
  cases m with
  | call target => cases target <;> rfl
  | _ => rfl

theorem withDst_withDst (d e : Reg) (m : Pseudo) : (m.withDst d).withDst e = m.withDst e := by
  cases m <;> rfl

theorem withDst_self {m : Pseudo} {d : Reg} (h : m.dst? = some d) : m.withDst d = m := by
  cases m <;> cases h <;> rfl

theorem uses_withDst (d : Reg) (m : Pseudo) : (m.withDst d).uses = m.uses := by
  cases m <;> rfl

/-- A virtual register is an operand exactly if it is read or written. -/
theorem virt_mem_regs {m : Pseudo} {v : Nat} :
    .virt v ∈ m.regs ↔ .virt v ∈ m.uses ∨ .virt v ∈ m.defs := by
  cases m with
  | call target => cases target <;> simp [regs, uses, defs]
  | _ => simp [regs, uses, defs, dst?] <;> grind

end Pseudo

theorem RegMap.apply_phys (map : RegMap) (r : Register) : map.apply (.phys r) = .phys r := rfl

theorem RegMap.apply_virt {map : RegMap} {v : Nat} {r : Register} (h : map v = some r) :
    map.apply (.virt v) = .phys r := by
  simp [RegMap.apply, h]

end DirectPage
