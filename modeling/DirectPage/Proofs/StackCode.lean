import DirectPage.Proofs.FrameLayout
import Mathlib.Data.List.Perm.Subperm

/-! Prologue and epilogue: registers are pushed and popped, and the stack pointer moves over the frame and back. -/
namespace DirectPage

/-- Registers are taken over in order, each once. -/
private theorem foldl_taken (rs acc : List Register) (hacc : acc.Nodup) :
    (rs.foldl (fun acc r => if acc.contains r then acc else acc ++ [r]) acc).Nodup ∧
      ∀ q, q ∈ rs.foldl (fun acc r => if acc.contains r then acc else acc ++ [r]) acc ↔ q ∈ acc ∨ q ∈ rs := by
  induction rs generalizing acc with
  | nil => exact ⟨hacc, by simp⟩
  | cons r rs ih =>
    rw [List.foldl_cons]
    split
    · next hr =>
      have hr : r ∈ acc := by simpa using hr
      refine ⟨(ih acc hacc).1, fun q => ((ih acc hacc).2 q).trans ?_⟩
      grind
    · next hr =>
      have hr : r ∉ acc := by simpa using hr
      have hnew : (acc ++ [r]).Nodup := by
        refine List.nodup_append.mpr ⟨hacc, by simp, ?_⟩
        rintro q hq q' hq' rfl
        exact hr (List.mem_singleton.mp hq' ▸ hq)
      refine ⟨(ih _ hnew).1, fun q => ((ih _ hnew).2 q).trans ?_⟩
      simp [or_assoc]

section SavedRegisters

variable (live : Bool) (used : List Register)

/-- No register is pushed twice. -/
theorem nodup_savedRegisters : (savedRegisters live used).Nodup :=
  (List.mergeSort_perm _ _).nodup_iff.mpr (foldl_taken _ [] List.nodup_nil).1

/-- The registers that are pushed are the ones in use that calls keep, apart from the frame base where it serves as
one. -/
theorem mem_savedRegisters {live : Bool} {used : List Register} {r : Register} :
    r ∈ savedRegisters live used ↔ r ∈ used ∧ r ∈ calleeSaved ∧ (live = true → r ≠ frameBase) := by
  rw [savedRegisters, Register.sorted, (List.mergeSort_perm _ _).mem_iff, (foldl_taken _ [] List.nodup_nil).2]
  cases live <;> simp [Register.isCalleeSaved]

theorem savedRegisters_spec :
    (∀ r ∈ savedRegisters live used, r ∈ calleeSaved) ∧ (savedRegisters live used).length ≤ calleeSaved.length := by
  have hmem : ∀ r ∈ savedRegisters live used, r ∈ calleeSaved := fun r hr => (mem_savedRegisters.mp hr).2.1
  exact ⟨hmem, ((nodup_savedRegisters live used).subperm hmem).length_le⟩

end SavedRegisters

namespace Expansion

open Machine

variable {m : Machine}

theorem push_slot (d : UInt8) (hmem : m.sp.toNat + 4 ≤ memorySize) (hroom : 4 ≤ m.sp.toNat) :
    m.Does [lda d, .implied .pha] fun m1 => m1.sp.toNat + 4 = m.sp.toNat ∧
      m1.memory = m.memory.setWord m.sp.toNat (m.memory.word d.toNat) := by
  refine .cons (m.advance_lda d) (.cons (advance_pha hmem) (.nil ⟨?_, rfl⟩))
  change (m.sp - 4#32).toNat + 4 = m.sp.toNat
  rw [Word.toNat_sub_ofNat hroom]
  omega

theorem pop_slot (d : UInt8) (hmem : m.sp.toNat + 8 ≤ memorySize) :
    m.Does [.implied .pla, sta d] fun m1 => m1.sp.toNat = m.sp.toNat + 4 ∧
      m1.memory = m.memory.setWord d.toNat (m.memory.word (m.sp.toNat + 4)) := by
  have hsp : (m.sp + 4#32).toNat = m.sp.toNat + 4 := by
    rw [memorySize] at hmem
    exact Word.toNat_add_ofNat (by omega)
  refine .cons (advance_pla (by omega)) (.cons (advance_sta _ _) (.nil ⟨hsp, ?_⟩))
  rw [← hsp]
  rfl

theorem spAdjust_does (delta : Word) (m : Machine) : m.Does (spAdjust delta) fun m1 =>
    m1.memory = m.memory ∧ m1.sp = m.sp + delta := by
  rw [spAdjust]
  split
  · next hz => exact .nil ⟨rfl, by rw [hz, BitVec.add_zero]⟩
  · dsimp only
    split
    · refine .cons rfl (.cons rfl (.cons rfl (.cons rfl (.cons rfl (.cons rfl (.nil ⟨rfl, ?_⟩))))))
      change m.sp + ~~~(-delta) + 1#32 = m.sp + delta
      rw [BitVec.add_assoc, ← BitVec.neg_eq_not_add, BitVec.neg_neg]
    · refine .cons rfl (.cons rfl (.cons rfl (.cons rfl (.cons rfl (.cons rfl (.nil ⟨rfl, ?_⟩))))))
      change m.sp + delta + 0#32 = m.sp + delta
      rw [BitVec.add_zero]

end Expansion

end DirectPage
