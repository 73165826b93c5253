import DirectPage.Proofs.ExecPlace
import DirectPage.Stream.Cleanup

/-! Machines that differ in the zero and negative flag, and what makes them equal again. -/
namespace DirectPage.Machine

namespace Alike

variable {x y : Checked Machine}

theorem symm (h : Alike x y) : Alike y x := Eq.symm h

theorem trans {z : Checked Machine} (h : Alike x y) (h' : Alike y z) : Alike x z := Eq.trans h h'

end Alike

/-- Machines that differ in these flags at most do alike. -/
theorem exec_alike {m m' : Machine} (h : m.forget = m'.forget) {i : Instruction}
    (hi : i.flow = .next ∨ i = .implied .rts) : Alike (m.exec i) (m'.exec i) := by
  have hforget (m : Machine) : Alike (m.forget.exec i) (m.exec i) := by
    rcases hi with hnext | rfl
    · exact (m.exec_placed m.pc m.code hnext).alike
    · simp only [exec, implied, pop, bind_assoc]
      change forget <$> (m.readWord (m.sp + 4#32) >>= _) = forget <$> (m.readWord (m.sp + 4#32) >>= _)
      cases m.readWord (m.sp + 4#32) <;> rfl
  have hm := hforget m
  rw [h] at hm
  exact hm.symm.trans (hforget m')

end DirectPage.Machine

namespace DirectPage

def Instruction.isCompare : Instruction → Bool
  | immediate .cmpImm _ | regAlu .cmpr _ _ | float .cmp _ _ _ => true
  | _ => false

/-- A compare makes machines equal that differ in the zero and negative flag at most. -/
theorem Machine.exec_compare {m m' : Machine} (h : m.forget = m'.forget) {i : Instruction}
    (hi : i.isCompare = true) : m.exec i = m'.exec i := by
  have hforget (m : Machine) : m.forget.exec i = m.exec i := by
    unfold Instruction.isCompare at hi
    split at hi
    · simp only [exec, operand_forget]
      rfl
    · rfl
    · rfl
    · cases hi
  rw [← hforget m, h, hforget m']

/-- What is redundant: a load of what was stored just before, and a transfer back. -/
theorem isRedundant_cases {prev cur : Instruction} (h : isRedundant prev cur = true) :
    (∃ x, prev = .direct .staDp x ∧ cur = .direct .ldaDp x) ∨ prev = .implied .txa ∧ cur = .implied .tax := by
  cases prev with
  | direct p x =>
    cases p with
    | staDp =>
      cases cur with
      | direct q y =>
        cases q with
        | ldaDp =>
          obtain rfl : x = y := eq_of_beq h
          exact .inl ⟨x, rfl, rfl⟩
        | _ => cases h
      | _ => cases h
    | _ => cases h
  | implied p =>
    cases p with
    | txa =>
      cases cur with
      | implied q =>
        cases q with
        | tax => exact .inr ⟨rfl, rfl⟩
        | _ => cases h
      | _ => cases h
    | _ => cases h
  | _ => cases h

/-- A redundant instruction changes nothing but the zero and negative flag. -/
theorem Machine.exec_redundant {m m1 : Machine} {prev cur : Instruction}
    (hr : isRedundant prev cur = true) (hp : m.exec prev = .ok m1) : Alike (m1.exec cur) (.ok m1) := by
  obtain ⟨x, rfl, rfl⟩ | ⟨rfl, rfl⟩ := isRedundant_cases hr
  · change m.writeWord (slotAddr x) m.a = .ok m1 at hp
    rw [writeWord_slot] at hp
    cases hp
    change Alike (readWord _ (slotAddr x) >>= _) _
    rw [readWord_slot, ok_bind, Memory.word_setWord_self]
    · rfl
    · have := x.toNat_lt
      simp only [memorySize]
      omega
  · cases hp
    rfl

end DirectPage
