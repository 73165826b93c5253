import DirectPage.Proofs.ActionRun
import DirectPage.Proofs.Encoding

/-! Steps of a machine through instructions that stand one behind the other in its code. -/
namespace DirectPage.Machine

def steps : Nat → Machine → Checked Machine
  | 0, m => .ok m
  | n + 1, m => m.step >>= steps n

def HoldsFrom (code : AddressMap (Option Instruction) 32) : Word → List Instruction → Prop
  | _, [] => True
  | pc, i :: is => code.get pc.toNat = some i ∧ HoldsFrom code (pc + BitVec.ofNat 32 i.size) is

def Holds (m : Machine) (is : List Instruction) : Prop := HoldsFrom m.code m.pc is

instance decidableHoldsFrom (code : AddressMap (Option Instruction) 32) :
    (pc : Word) → (is : List Instruction) → Decidable (HoldsFrom code pc is)
  | _, [] => .isTrue trivial
  | pc, i :: is =>
    have := decidableHoldsFrom code (pc + BitVec.ofNat 32 i.size) is
    inferInstanceAs (Decidable (code.get pc.toNat = some i ∧ HoldsFrom code (pc + BitVec.ofNat 32 i.size) is))

instance (m : Machine) (is : List Instruction) : Decidable (m.Holds is) := decidableHoldsFrom m.code m.pc is

variable {m : Machine} {i : Instruction} {is : List Instruction}

theorem step_of_get (h : m.code.get m.pc.toNat = some i) :
    m.step = { m with pc := m.pc + BitVec.ofNat 32 i.size }.exec i := by
  rw [step, h]

theorem advance_placed (pc : Word) (code : AddressMap (Option Instruction) 32) (i : Instruction) :
    (m.placed pc code).advance i = (·.placed pc code) <$> m.advance i := by
  rw [advance, advance]
  split
  · next hi => exact (m.exec_placed pc code (Instruction.flow_of_isPlain hi)).eq
  · rfl

theorem advanceAll_placed (pc : Word) (code : AddressMap (Option Instruction) 32) (is : List Instruction) :
    (m.placed pc code).advanceAll is = (·.placed pc code) <$> m.advanceAll is := by
  induction is generalizing m with
  | nil => rfl
  | cons i is ih =>
    rw [advanceAll_cons, advanceAll_cons, advance_placed]
    rcases m.advance i with e | m1
    · rfl
    · exact ih

/-- A plain instruction leaves the program counter behind it. -/
theorem step_plain (h : m.code.get m.pc.toNat = some i) (hi : i.isPlain = true) :
    m.step = (·.placed (m.pc + BitVec.ofNat 32 i.size) m.code) <$> m.advance i := by
  rw [step_of_get h, advance, if_pos hi]
  exact (m.exec_placed _ m.code (Instruction.flow_of_isPlain hi)).eq

/-- Instructions that are run one behind the other can be stepped through. -/
theorem steps_eq (h : m.Holds is) (hrun : m.advanceAll is ≠ abort) :
    m.steps is.length = (·.placed (m.pc + BitVec.ofNat 32 (encodeAll is).length) m.code) <$> m.advanceAll is := by
  induction is generalizing m with
  | nil =>
    rw [show m.pc + BitVec.ofNat 32 (encodeAll []).length = m.pc from BitVec.add_zero _]
    rfl
  | cons i is ih =>
    have hi : i.isPlain = true := by
      cases hi : i.isPlain with
      | true => rfl
      | false => exact absurd (by simp [advance, hi]; rfl) hrun
    rw [advanceAll_cons] at hrun
    rw [List.length_cons, steps, step_plain h.1 hi, advanceAll_cons]
    rcases hone : m.advance i with e | m1
    · rfl
    · have hrest := ih (m := m1.placed (m.pc + BitVec.ofNat 32 i.size) m.code) h.2
      have hsize : (encodeAll (i :: is)).length = i.size + (encodeAll is).length := by
        rw [encodeAll, List.flatMap_cons, List.length_append, Instruction.encode_length, encodeAll]
      rw [hone, ok_bind] at hrun
      rw [advanceAll_placed] at hrest
      change steps is.length (m1.placed _ _) = _ <$> m1.advanceAll is
      rw [hsize, BitVec.ofNat_add, ← BitVec.add_assoc]
      rcases hall : m1.advanceAll is with e | m2
      · rw [hall] at hrun hrest
        exact hrest hrun
      · rw [hall] at hrest
        exact hrest (fun he => by cases he)

theorem steps_ok {m' : Machine} (h : m.Holds is) (hrun : m.advanceAll is = .ok m') :
    m.steps is.length = .ok (m'.placed (m.pc + BitVec.ofNat 32 (encodeAll is).length) m.code) := by
  rw [steps_eq h (fun he => by cases hrun.symm.trans he), hrun]
  rfl

end DirectPage.Machine
