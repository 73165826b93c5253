import Mathlib.Logic.Relation
import DirectPage.Proofs.Liveness

/-! A register is live at the start of a block exactly if some way through the function reads it before any write.

That a way makes a register live is an induction on the way, and that nothing else does is the least solution of the
equations of liveness. -/
namespace DirectPage.Allocation

variable {f : Routine} {r : Reg} {b : Nat} {block : List Pseudo}

def ReadsFirst (r : Reg) (block : List Pseudo) : Prop :=
  ∃ before m after, block = before ++ m :: after ∧ r ∈ m.uses ∧ ∀ n ∈ before, r ∉ n.defs

def Writes (r : Reg) (block : List Pseudo) : Prop := ∃ m ∈ block, r ∈ m.defs

def Passes (f : Routine) (r : Reg) (b c : Nat) : Prop :=
  c ∈ f.successors b ∧ ∀ block, f.blocks[b]? = some block → ¬ Writes r block

/-- A way along successors from a block to one that reads the register first. No block before the last writes it. -/
def LivePath (f : Routine) (r : Reg) (b : Nat) : Prop :=
  ∃ c block, Relation.ReflTransGen (Passes f r) b c ∧ f.blocks[c]? = some block ∧ ReadsFirst r block

theorem kills_iff : kills r block = true ↔ Writes r block := by
  simp [kills, Writes]

theorem readsFirst_cons {m : Pseudo} :
    ReadsFirst r (m :: block) ↔ r ∈ m.uses ∨ r ∉ m.defs ∧ ReadsFirst r block := by
  constructor
  · rintro ⟨before, n, after, heq, hu, hbefore⟩
    cases before with
    | nil =>
      cases heq
      exact .inl hu
    | cons k before =>
      cases heq
      obtain ⟨hd, hbefore⟩ := List.forall_mem_cons.mp hbefore
      exact .inr ⟨hd, before, n, after, rfl, hu, hbefore⟩
  · rintro (hu | ⟨hd, before, n, after, rfl, hu, hbefore⟩)
    · exact ⟨[], m, block, rfl, hu, by simp⟩
    · exact ⟨m :: before, n, after, rfl, hu, List.forall_mem_cons.mpr ⟨hd, hbefore⟩⟩

theorem exposes_iff : exposes r block = true ↔ ReadsFirst r block := by
  induction block with
  | nil => simp [exposes, ReadsFirst]
  | cons m block ih => simp [exposes, readsFirst_cons, ih]

/-- A missing block has no successors. -/
theorem block_of_successor {c : Nat} (h : c ∈ f.successors b) : ∃ block, f.blocks[b]? = some block := by
  cases hb : f.blocks[b]? with
  | none => simp [Routine.successors, hb] at h
  | some block => exact ⟨block, rfl⟩

/-- Liveness at the start of a block, as ways to a read. -/
theorem holds_liveIn_iff_path : holds (liveIn f r) b = true ↔ LivePath f r b := by
  constructor
  · intro h
    apply liveIn_least (P := LivePath f r) _ h
    intro b block hb hlive
    rcases hlive with he | ⟨hk, c, hc, d, last, hpath, hread⟩
    · exact ⟨b, block, .refl, hb, exposes_iff.mp he⟩
    · rw [← Bool.not_eq_true, kills_iff] at hk
      have hpass : Passes f r b c := ⟨hc, fun _ hother => Option.some.inj (hb.symm.trans hother) ▸ hk⟩
      exact ⟨d, last, .head hpass hpath, hread⟩
  · rintro ⟨d, last, hpath, hlast, hread⟩
    -- From the read back to the start of the way.
    induction hpath using Relation.ReflTransGen.head_induction_on with
    | refl => rw [holds_liveIn hlast, exposes_iff.mpr hread, Bool.true_or]
    | @head b c hpass _ ih =>
      obtain ⟨hc, hkept⟩ := hpass
      obtain ⟨block, hb⟩ := block_of_successor hc
      rw [holds_liveIn hb, Bool.or_eq_true, Bool.and_eq_true, List.any_eq_true, Bool.not_eq_true',
        ← Bool.not_eq_true, kills_iff]
      exact .inr ⟨hkept block hb, c, hc, ih⟩

end DirectPage.Allocation
