import DirectPage.Condition.Canonical

/-! Compares in canonical form: one branch tests their relation, and on the flags of the words compared that branch
decides what the relation decided before. -/
namespace DirectPage

namespace CondCode

private theorem beq_toInt (l r : Word) : (l == r) = decide (l.toInt = r.toInt) := by
  rw [Bool.eq_iff_iff, beq_iff_eq, decide_eq_true_eq, BitVec.toInt_inj]

private theorem beq_toNat (l r : Word) : (l == r) = decide (l.toNat = r.toNat) := by
  rw [Bool.eq_iff_iff, beq_iff_eq, decide_eq_true_eq, BitVec.toNat_inj]

/-- The branches of a relation reach their target exactly when it holds of the words compared. -/
theorem taken_plan (cc : CondCode) (l r : Word) : cc.plan.taken (Flags.compare l r) = cc.holds l r := by
  have hskip : (Dest.skip == Dest.target) = false := rfl
  cases cc with
  | eq | ne =>
    simp only [plan, Plan.taken, BranchStep.onto, BranchCond.taken, Flags.compare, holds, bne]
    cases l == r <;> rfl
  | lt | ge => simp [plan, Plan.taken, BranchStep.onto, BranchCond.taken, Flags.compare, holds, BitVec.sle_eq_not_slt]
  | ult | uge => simp [plan, Plan.taken, BranchStep.onto, BranchCond.taken, Flags.compare, holds, BitVec.ule_eq_not_ult]
  | gt | le =>
    simp only [plan, Plan.taken, BranchStep.onto, BranchStep.past, BranchStep.always, BranchCond.taken, Flags.compare,
      holds, beq_toInt, BitVec.slt, BitVec.sle]
    by_cases he : l.toInt = r.toInt <;> by_cases hlt : l.toInt < r.toInt <;> simp [he, hlt, hskip] <;> omega
  | ugt | ule =>
    simp only [plan, Plan.taken, BranchStep.onto, BranchStep.past, BranchCond.taken, Flags.compare,
      holds, beq_toNat, BitVec.ult, BitVec.ule]
    by_cases he : l.toNat = r.toNat <;> by_cases hlt : r.toNat ≤ l.toNat <;> simp [he, hlt, hskip] <;> omega

theorem holds_invert (cc : CondCode) (l r : Word) : cc.invert.holds l r = !cc.holds l r := by
  cases cc <;> simp [invert, holds, bne, BitVec.sle_eq_not_slt, BitVec.ule_eq_not_ult]

theorem holds_swap (cc : CondCode) (l r : Word) : cc.swap.holds l r = cc.holds r l := by
  cases cc with
  | eq => exact Bool.beq_comm
  | ne => exact bne_comm
  | _ => rfl

/-- A relation that one branch does not test is tested by one with its operands in the other order. -/
theorem isNative_swap {cc : CondCode} (h : cc.isNative = false) : cc.swap.isNative = true := by
  cases cc with
  | le | gt | ule | ugt => rfl
  | _ => cases h

def reading (cc : CondCode) (w : Word) : Int :=
  match cc with
  | lt | le | gt | ge => w.toInt
  | eq | ne | ult | ule | ugt | uge => w.toNat

end CondCode

def CmpRhs.word {R : Type} (regs : R → Word) : CmpRhs R → Word
  | reg r => regs r
  | imm k => k

/-- What a compare may turn into: itself, the compare with its operands swapped, or one with a constant that is higher
by one, as the relation reads constants. -/
inductive Rewritten {R : Type} (cc : CondCode) (lhs : R) : CmpRhs R → CondCode → R → CmpRhs R → Prop
  | same (rhs : CmpRhs R) : Rewritten cc lhs rhs cc lhs rhs
  | swapped (r : R) : Rewritten cc lhs (.reg r) cc.swap r (.reg lhs)
  | raised {cc' : CondCode} {k k' : Word} (hsame : cc'.reading = cc.reading) (hk : cc.reading k' = cc.reading k + 1) :
    Rewritten cc lhs (.imm k) cc' lhs (.imm k')

namespace Canonical

variable {R : Type}

def holds (regs : R → Word) : Canonical R → Bool
  | compare cc lhs rhs => cc.holds (regs lhs) (rhs.word regs)
  | constant b => b

/-- A compare that one branch tests and that decides as before, or a constant that is the outcome for every word on the
left. -/
structure Sound (cc : CondCode) (lhs : R) (rhs : CmpRhs R) (c : Canonical R) : Prop where
  native : ∀ cc' lhs' rhs', c = .compare cc' lhs' rhs' → cc'.isNative = true ∧ Rewritten cc lhs rhs cc' lhs' rhs'
  constant : ∀ b, c = .constant b → ∃ k, rhs = .imm k
  holds : ∀ regs : R → Word, c.holds regs = cc.holds (regs lhs) (rhs.word regs)

section Raised

variable {cc cc' : CondCode} {lhs : R} {k largest : Word} {atLargest : Bool}

/-- A constant that can be raised, or an outcome that is known since it cannot. -/
theorem sound_raised (hnative : cc'.isNative = true) (hsame : cc'.reading = cc.reading)
    (hraise : k ≠ largest → cc.reading (k + 1#32) = cc.reading k + 1)
    (hnext : ∀ w, k ≠ largest → cc'.holds w (k + 1#32) = cc.holds w k)
    (hlast : ∀ w, cc.holds w largest = atLargest) :
    Sound cc lhs (.imm k) (raised cc' lhs k largest atLargest) := by
  rw [raised]
  by_cases hk : k = largest
  · rw [if_pos hk]
    refine ⟨fun _ _ _ h => (by cases h), fun _ _ => ⟨k, rfl⟩, fun regs => ?_⟩
    rw [hk]
    exact (hlast _).symm
  · rw [if_neg hk]
    refine ⟨?_, fun _ h => (by cases h), fun regs => hnext _ hk⟩
    rintro _ _ _ ⟨⟩
    exact ⟨hnative, .raised hsame (hraise hk)⟩

private theorem toInt_succ (h : k ≠ Word.maxSigned) : (k + 1#32).toInt = k.toInt + 1 := by
  have hk := k.isLt
  have hne : k.toNat ≠ 2147483647 := fun he => h (BitVec.eq_of_toNat_eq he)
  simp only [BitVec.toInt_eq_toNat_cond, BitVec.toNat_add, BitVec.toNat_ofNat]
  split <;> split <;> omega

/-- Going one higher may pass from the largest signed word to the smallest. -/
private theorem toNat_succ (h : k ≠ -1#32) : (k + 1#32).toNat = k.toNat + 1 := by
  have hk := k.isLt
  have hne : k.toNat ≠ 4294967295 := fun he => h (BitVec.eq_of_toNat_eq he)
  simp only [BitVec.toNat_add, BitVec.toNat_ofNat]
  omega

private theorem toInt_le_maxSigned (w : Word) : w.toInt ≤ Word.maxSigned.toInt := by
  have := BitVec.toInt_lt (x := w)
  rw [show Word.maxSigned.toInt = 2147483647 from rfl]
  omega

private theorem toNat_le_maxUnsigned (w : Word) : w.toNat ≤ (-1#32 : Word).toNat := by
  have := w.isLt
  rw [show (-1#32 : Word).toNat = 4294967295 from rfl]
  omega

end Raised

theorem sound_canonicalize_imm (cc : CondCode) (lhs : R) (k : Word) :
    Sound cc lhs (.imm k) (canonicalize cc lhs (.imm k)) := by
  have hkeep (hnative : cc.isNative = true) : Sound cc lhs (.imm k) (.compare cc lhs (.imm k)) := by
    refine ⟨?_, fun _ h => (by cases h), fun _ => rfl⟩
    rintro _ _ _ ⟨⟩
    exact ⟨hnative, .same _⟩
  cases cc with
  | gt =>
    refine sound_raised rfl rfl toInt_succ (fun w hk => ?_) fun w => ?_
    · simp only [CondCode.holds, BitVec.sle, BitVec.slt, toInt_succ hk, Int.add_one_le_iff]
    · have := toInt_le_maxSigned w
      simpa only [CondCode.holds, BitVec.slt, decide_eq_false_iff_not, Int.not_lt]
  | le =>
    refine sound_raised rfl rfl toInt_succ (fun w hk => ?_) fun w => ?_
    · simp only [CondCode.holds, BitVec.sle, BitVec.slt, toInt_succ hk, Int.lt_add_one_iff]
    · exact decide_eq_true (toInt_le_maxSigned w)
  | ugt =>
    refine sound_raised rfl rfl (fun hk => congrArg Int.ofNat (toNat_succ hk)) (fun w hk => ?_) fun w => ?_
    · simp only [CondCode.holds, BitVec.ule, BitVec.ult, toNat_succ hk, Nat.add_one_le_iff]
    · have := toNat_le_maxUnsigned w
      simpa only [CondCode.holds, BitVec.ult, decide_eq_false_iff_not, Nat.not_lt]
  | ule =>
    refine sound_raised rfl rfl (fun hk => congrArg Int.ofNat (toNat_succ hk)) (fun w hk => ?_) fun w => ?_
    · simp only [CondCode.holds, BitVec.ule, BitVec.ult, toNat_succ hk, Nat.lt_add_one_iff]
    · exact decide_eq_true (toNat_le_maxUnsigned w)
  | _ => exact hkeep rfl

theorem sound_canonicalize_reg (cc : CondCode) (lhs r : R) :
    Sound cc lhs (.reg r) (canonicalize cc lhs (.reg r)) := by
  rw [canonicalize]
  split
  · next hnative =>
    refine ⟨?_, fun _ h => (by cases h), fun _ => rfl⟩
    rintro _ _ _ ⟨⟩
    exact ⟨hnative, .same _⟩
  · next hnative =>
    refine ⟨?_, fun _ h => (by cases h), fun regs => cc.holds_swap _ _⟩
    rintro _ _ _ ⟨⟩
    exact ⟨CondCode.isNative_swap (by simpa using hnative), .swapped r⟩

theorem sound_canonicalize (cc : CondCode) (lhs : R) (rhs : CmpRhs R) :
    Sound cc lhs rhs (canonicalize cc lhs rhs) := by
  cases rhs with
  | reg r => exact sound_canonicalize_reg cc lhs r
  | imm k => exact sound_canonicalize_imm cc lhs k

end Canonical

/-- A compare is brought to one whose relation one branch tests, with its operands as they were, swapped, or with a
constant raised by one without wrapping around; or to a constant. In the first case the branches of the relation, on the
flags of the words compared, are taken exactly when the compare held, and those of its inverse exactly when it did
not. In the second case the constant is the outcome for every word on the left. -/
theorem canonicalize_sound {R : Type} (cc : CondCode) (lhs : R) (rhs : CmpRhs R) :
    (∃ cc' lhs' rhs', canonicalize cc lhs rhs = .compare cc' lhs' rhs' ∧ cc'.isNative = true ∧
      Rewritten cc lhs rhs cc' lhs' rhs' ∧ ∀ regs : R → Word,
        cc'.plan.taken (Flags.compare (regs lhs') (rhs'.word regs)) = cc.holds (regs lhs) (rhs.word regs) ∧
        cc'.invert.plan.taken (Flags.compare (regs lhs') (rhs'.word regs)) = !cc.holds (regs lhs) (rhs.word regs)) ∨
    ∃ b k, canonicalize cc lhs rhs = .constant b ∧ rhs = .imm k ∧ ∀ w, cc.holds w k = b := by
  obtain ⟨hnative, hconstant, hholds⟩ := Canonical.sound_canonicalize cc lhs rhs
  cases hc : canonicalize cc lhs rhs with
  | compare cc' lhs' rhs' =>
    obtain ⟨hone, hrewritten⟩ := hnative cc' lhs' rhs' hc
    refine .inl ⟨cc', lhs', rhs', rfl, hone, hrewritten, fun regs => ?_⟩
    have h := hholds regs
    rw [hc] at h
    rw [CondCode.taken_plan, CondCode.taken_plan, CondCode.holds_invert]
    exact ⟨h, congrArg not h⟩
  | constant b =>
    obtain ⟨k, rfl⟩ := hconstant b hc
    refine .inr ⟨b, k, rfl, rfl, fun w => ?_⟩
    have h := hholds fun _ => w
    rw [hc] at h
    exact h.symm

end DirectPage
