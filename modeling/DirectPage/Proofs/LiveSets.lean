import Mathlib.Algebra.Order.BigOperators.Group.Finset
import Mathlib.Data.Finset.Union
import Mathlib.Order.Lattice
import DirectPage.Proofs.LivePath

/-! Liveness as sets of registers that are updated in place.

The blocks are visited from the last to the first, each visit takes the sets that it finds, and rounds follow each other
until one changes nothing. The sets only grow and hold live registers only, so the rounds end, and they end with the
registers that are live. -/
namespace DirectPage.Allocation

abbrev LiveSets := Nat → Finset Reg × Finset Reg

namespace LiveSets

def next (f : Routine) (s : LiveSets) (b : Nat) : Finset Reg × Finset Reg :=
  let block := f.blocks[b]?.getD []
  let out := (f.successors b).toFinset.biUnion fun c => (s c).1
  ((block.flatMap Pseudo.uses).toFinset.filter (exposes · block) ∪ out.filter (!kills · block), out)

/-- Visit a block: if one of its sets is out of date, update both and note the change. -/
def visit (f : Routine) (found : LiveSets × Bool) (b : Nat) : LiveSets × Bool :=
  if next f found.1 b = found.1 b then found else (Function.update found.1 b (next f found.1 b), true)

def visitAll (f : Routine) (s : LiveSets) : LiveSets × Bool :=
  (List.range f.blocks.length).reverse.foldl (visit f) (s, false)

inductive Settles (f : Routine) : LiveSets → LiveSets → Prop
  | done {s t : LiveSets} : visitAll f s = (t, false) → Settles f s t
  | again {s t u : LiveSets} : visitAll f s = (t, true) → Settles f t u → Settles f s u

variable {f : Routine} {s t u : LiveSets} {b : Nat} {r : Reg} {block : List Pseudo}

theorem Settles.unique (ht : Settles f s t) (hu : Settles f s u) : t = u := by
  induction ht with
  | done h => cases hu <;> simp_all
  | again h _ ih =>
    cases hu with
    | done h' => simp_all
    | again h' hrest =>
      rw [h] at h'
      cases h'
      exact ih hrest

theorem read_of_exposes (h : exposes r block = true) : r ∈ block.flatMap Pseudo.uses := by
  obtain ⟨before, m, after, rfl, hu, -⟩ := exposes_iff.mp h
  exact List.mem_flatMap.mpr ⟨m, by simp, hu⟩

theorem mem_next_fst : r ∈ (next f s b).1 ↔ exposes r (f.blocks[b]?.getD []) = true ∨
    kills r (f.blocks[b]?.getD []) = false ∧ ∃ c ∈ f.successors b, r ∈ (s c).1 := by
  simp only [next, Finset.mem_union, Finset.mem_filter, List.mem_toFinset, Finset.mem_biUnion, Bool.not_eq_true']
  rw [and_iff_right_of_imp read_of_exposes, and_comm (b := _ = false)]

theorem next_mono (h : s ≤ t) : next f s ≤ next f t := by
  intro b
  have hout : (next f s b).2 ⊆ (next f t b).2 := Finset.biUnion_mono fun c _ => (h c).1
  exact ⟨Finset.union_subset_union (Finset.Subset.refl _) (Finset.filter_subset_filter _ hout), hout⟩

def computed (f : Routine) : LiveSets := fun b =>
  let live (b : Nat) := (f.blocks.flatten.flatMap Pseudo.uses).toFinset.filter fun r => holds (liveIn f r) b
  (live b, (f.successors b).toFinset.biUnion live)

theorem mem_computed_fst : r ∈ (computed f b).1 ↔ holds (liveIn f r) b = true := by
  rw [computed, Finset.mem_filter, List.mem_toFinset]
  apply and_iff_right_of_imp
  intro h
  obtain ⟨c, block, hc, he⟩ := exposed_of_liveIn h
  obtain ⟨m, hm, hu⟩ := List.mem_flatMap.mp (read_of_exposes he)
  exact List.mem_flatMap.mpr ⟨m, List.mem_flatten.mpr ⟨block, List.mem_of_getElem? hc, hm⟩, hu⟩

theorem mem_computed_snd : r ∈ (computed f b).2 ↔ holds (liveOut f r) b = true := by
  change r ∈ (f.successors b).toFinset.biUnion (fun c => (computed f c).1) ↔ _
  simp only [Finset.mem_biUnion, List.mem_toFinset, mem_computed_fst]
  cases hb : f.blocks[b]? with
  | none => simp [holds, liveOut, withSuccessors_getElem?, hb, Routine.successors]
  | some block => rw [holds_liveOut hb, List.any_eq_true]

/-- They are up to date. -/
theorem next_computed (f : Routine) : next f (computed f) = computed f := by
  funext b
  refine Prod.ext ?_ rfl
  ext r
  rw [mem_next_fst, mem_computed_fst]
  simp only [mem_computed_fst]
  cases hb : f.blocks[b]? with
  | none =>
    have hmissing : holds (liveIn f r) b ≠ true := by
      intro h
      obtain ⟨block, hblock⟩ := liveIn_least (P := fun b => ∃ block, f.blocks[b]? = some block)
        (fun _ block hb _ => ⟨block, hb⟩) h
      rw [hb] at hblock
      cases hblock
    simp [exposes, Routine.successors, hb, hmissing]
  | some block => simp [holds_liveIn hb]

structure Growing (f : Routine) (s : LiveSets) : Prop where
  rises : s ≤ next f s
  live : s ≤ computed f

theorem Growing.le_update (h : Growing f s) (b : Nat) : s ≤ Function.update s b (next f s b) :=
  le_update_self_iff.mpr (h.rises b)

/-- Step lemma: a visit keeps the invariant. -/
theorem Growing.update (h : Growing f s) (b : Nat) : Growing f (Function.update s b (next f s b)) := by
  have hle := h.le_update b
  constructor
  · apply update_le_iff.mpr
    exact ⟨next_mono hle b, fun c _ => (h.rises c).trans (next_mono hle c)⟩
  · apply update_le_iff.mpr
    have hnext := next_mono (f := f) h.live b
    rw [next_computed] at hnext
    exact ⟨hnext, fun c _ => h.live c⟩

def size (f : Routine) (s : LiveSets) : Nat := ∑ b ∈ Finset.range f.blocks.length, ((s b).1.card + (s b).2.card)

theorem card_le (h : s ≤ t) (b : Nat) : (s b).1.card + (s b).2.card ≤ (t b).1.card + (t b).2.card :=
  Nat.add_le_add (Finset.card_le_card (h b).1) (Finset.card_le_card (h b).2)

theorem size_le (h : s ≤ t) : size f s ≤ size f t := by
  apply Finset.sum_le_sum
  intro b _
  exact card_le h b

/-- A visit that changes something makes the sets larger. -/
theorem Growing.size_update (h : Growing f s) (hb : b < f.blocks.length) (hc : next f s b ≠ s b) :
    size f s < size f (Function.update s b (next f s b)) := by
  apply Finset.sum_lt_sum
  · intro c _
    exact card_le (h.le_update b) c
  · refine ⟨b, Finset.mem_range.mpr hb, ?_⟩
    rw [Function.update_self]
    rcases Prod.lt_iff.mp (lt_of_le_of_ne (h.rises b) hc.symm) with ⟨hlt, hle⟩ | ⟨hle, hlt⟩
    · exact Nat.add_lt_add_of_lt_of_le (Finset.card_lt_card hlt) (Finset.card_le_card hle)
    · exact Nat.add_lt_add_of_le_of_lt (Finset.card_le_card hle) (Finset.card_lt_card hlt)

/-- Run lemma: visits either find every block up to date and change nothing, or make the sets larger and say so. -/
theorem Growing.visits {bs : List Nat} (hbs : ∀ b ∈ bs, b < f.blocks.length) (h : Growing f s) (changed : Bool) :
    ∃ t changed', bs.foldl (visit f) (s, changed) = (t, changed') ∧ Growing f t ∧
      ((t = s ∧ changed' = changed ∧ ∀ b ∈ bs, next f s b = s b) ∨ (size f s < size f t ∧ changed' = true)) := by
  induction bs generalizing s changed with
  | nil => exact ⟨s, changed, rfl, h, .inl ⟨rfl, rfl, by simp⟩⟩
  | cons b bs ih =>
    obtain ⟨hb, hrest⟩ := List.forall_mem_cons.mp hbs
    rw [List.foldl_cons]
    by_cases hc : next f s b = s b
    · obtain ⟨t, changed', hrun, ht, hresult⟩ := ih hrest h changed
      refine ⟨t, changed', by rw [visit, if_pos hc, hrun], ht, hresult.imp ?_ id⟩
      rintro ⟨rfl, hsame, hcurrent⟩
      exact ⟨rfl, hsame, List.forall_mem_cons.mpr ⟨hc, hcurrent⟩⟩
    · have hlt := h.size_update hb hc
      obtain ⟨t, changed', hrun, ht, hresult⟩ := ih hrest (h.update b) true
      refine ⟨t, changed', by rw [visit, if_neg hc, hrun], ht, .inr ?_⟩
      rcases hresult with ⟨rfl, rfl, -⟩ | ⟨hlt', rfl⟩
      · exact ⟨hlt, rfl⟩
      · exact ⟨by omega, rfl⟩

/-- Sets that are up to date in every block and hold only live registers hold all of them. -/
theorem Growing.eq_computed (h : Growing f s) (hc : ∀ b < f.blocks.length, next f s b = s b) : s = computed f := by
  have hins : ∀ b, (computed f b).1 ⊆ (s b).1 := by
    intro b r hr
    apply liveIn_least (P := fun b => r ∈ (s b).1) _ (mem_computed_fst.mp hr)
    intro c block hblock hnext
    rw [← hc c (List.getElem?_eq_some_iff.mp hblock).1, mem_next_fst, hblock]
    exact hnext
  apply le_antisymm h.live
  intro b
  refine ⟨hins b, ?_⟩
  intro r hr
  obtain ⟨c, hsucc, hlive⟩ := Finset.mem_biUnion.mp hr
  obtain ⟨block, hblock⟩ := block_of_successor (List.mem_toFinset.mp hsucc)
  rw [← hc b (List.getElem?_eq_some_iff.mp hblock).1]
  exact Finset.mem_biUnion.mpr ⟨c, hsucc, hins c hlive⟩

/-- The rounds end with the sets of live registers. -/
theorem Growing.settles (h : Growing f s) : Settles f s (computed f) := by
  -- Sizes are bounded, and every round but the last makes the sets larger.
  induction hk : size f (computed f) - size f s using Nat.strongRecOn generalizing s with
  | ind k ih =>
    have hrange : ∀ b ∈ (List.range f.blocks.length).reverse, b < f.blocks.length := by simp
    obtain ⟨t, changed, hround, ht, hresult⟩ := h.visits hrange false
    rcases hresult with ⟨rfl, rfl, hcurrent⟩ | ⟨hlt, rfl⟩
    · have heq := ht.eq_computed fun b hb => hcurrent b (by simpa using hb)
      exact heq ▸ .done hround
    · have hbound := size_le (f := f) ht.live
      exact .again hround (ih _ (by omega) ht rfl)

end LiveSets

/-- Liveness is exact. Updating the sets in place ends, always with the same sets, and those are the ones that
allocation computes register by register. A register is in the set at the start of a block if and only if a way along
successors leads to a read of it without a write before, and the set at the end of a block is the union of those at
the starts of its successors. -/
theorem liveness_exact (f : Routine) :
    ∃ t : LiveSets, (∀ u, LiveSets.Settles f ⊥ u ↔ u = t) ∧ ∀ b,
      (∀ r, (r ∈ (t b).1 ↔ holds (liveIn f r) b = true) ∧ (r ∈ (t b).2 ↔ holds (liveOut f r) b = true)) ∧
      (∀ r, r ∈ (t b).1 ↔ LivePath f r b) ∧
      (t b).2 = (f.successors b).toFinset.biUnion fun c => (t c).1 := by
  have hsettles : LiveSets.Settles f ⊥ (.computed f) := LiveSets.Growing.settles ⟨bot_le, bot_le⟩
  refine ⟨.computed f, fun u => ⟨fun hu => hu.unique hsettles, fun hu => hu ▸ hsettles⟩, ?_⟩
  intro b
  refine ⟨fun r => ⟨LiveSets.mem_computed_fst, LiveSets.mem_computed_snd⟩, ?_, rfl⟩
  intro r
  rw [LiveSets.mem_computed_fst, holds_liveIn_iff_path]

end DirectPage.Allocation
