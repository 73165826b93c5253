import Mathlib.Order.Lattice
import DirectPage.Allocation.Interval
import DirectPage.Proofs.Liveness

/-! Ranges of registers contain every position at which the register is in use.

The write of an operation is a position of its own. A register that is written there, or
that is live behind the operation, has that position in its range. -/
namespace DirectPage.Allocation

def liveBefore (r : Reg) (rest : List Pseudo) (atEnd : Bool) : Bool :=
  exposes r rest || (!kills r rest && atEnd)

def LiveAt (f : Routine) (b k : Nat) (r : Reg) : Prop :=
  ∃ block, f.blocks[b]? = some block ∧ k ≤ block.length ∧
    liveBefore r (block.drop k) (holds (liveOut f r) b) = true

def firstPlace (f : Routine) (b : Nat) : Nat := (f.blocks.take b).flatten.length

def writePosition (f : Routine) (b k : Nat) : Nat := 2 * (firstPlace f b + k) + 1

def Segment.Has (s : Segment) (p : Nat) : Prop := s.start ≤ p ∧ p ≤ s.stop

variable {p b k v : Nat} {f : Routine} {block insts : List Pseudo} {m : Pseudo} {r : Reg} {iv : Interval}

theorem Segment.overlaps_of_has {s t : Segment} (hs : s.Has p) (ht : t.Has p) : s.overlaps t = true := by
  obtain ⟨h1, h2⟩ := hs
  obtain ⟨h3, h4⟩ := ht
  simp only [overlaps, Bool.and_eq_true, decide_eq_true_eq]
  omega

theorem liveBefore_cons (r : Reg) (m : Pseudo) (rest : List Pseudo) (atEnd : Bool) :
    liveBefore r (m :: rest) atEnd =
      (m.uses.contains r || (!m.defs.contains r && liveBefore r rest atEnd)) := by
  simp only [liveBefore, exposes, kills, List.any_cons]
  cases m.uses.contains r <;> cases m.defs.contains r <;> simp

theorem holds_liveIn_iff (h : f.blocks[b]? = some block) (r : Reg) :
    holds (liveIn f r) b = liveBefore r block (holds (liveOut f r) b) := by
  rw [holds_liveIn h, holds_liveOut h, liveBefore]

/-! Places and positions. -/

theorem place_getElem? (first : Nat) (blocks : List (List Pseudo)) (b : Nat) :
    (place first blocks)[b]? =
      blocks[b]?.map fun block => ⟨first + (blocks.take b).flatten.length, block⟩ := by
  induction blocks generalizing first b with
  | nil => simp [place]
  | cons block rest ih =>
    cases b with
    | zero => simp [place]
    | succ b =>
      simp only [place, List.getElem?_cons_succ, ih, List.take_succ_cons, List.flatten_cons,
        List.length_append, Nat.add_assoc]

private theorem flatten_getElem? {blocks : List (List Pseudo)} (h : blocks[b]? = some block) (hk : k < block.length) :
    blocks.flatten[(blocks.take b).flatten.length + k]? = block[k]? := by
  induction blocks generalizing b with
  | nil => simp at h
  | cons first rest ih =>
    cases b with
    | zero =>
      simp only [List.getElem?_cons_zero, Option.some.injEq] at h
      subst h
      simp [List.getElem?_append_left hk]
    | succ b =>
      simp only [List.getElem?_cons_succ] at h
      rw [List.take_succ_cons, List.flatten_cons, List.flatten_cons, List.length_append,
        List.getElem?_append_right (by omega), ← ih h]
      congr 1
      omega

private theorem mem_touchesFrom {j : Nat} (i : Nat) (h : insts[j]? = some m) (t : Touch)
    (ht : t ∈ m.uses.map (·, 2 * (i + j)) ++ m.defs.map (·, 2 * (i + j) + 1)) :
    t ∈ touchesFrom i insts := by
  induction insts generalizing i j with
  | nil => simp at h
  | cons first rest ih =>
    rw [touchesFrom, List.mem_append]
    cases j with
    | zero =>
      simp only [List.getElem?_cons_zero, Option.some.injEq] at h
      subst h
      exact .inl ht
    | succ j =>
      refine .inr (ih (i + 1) (j := j) (by simpa using h) ?_)
      rwa [Nat.add_right_comm i 1 j]

def opAt? (f : Routine) (b k : Nat) : Option Pseudo := (f.blocks[b]?).bind (·[k]?)

theorem opAt?_some (h : opAt? f b k = some m) : ∃ block, f.blocks[b]? = some block ∧ block[k]? = some m := by
  simpa [opAt?, Option.bind_eq_some_iff] using h

private theorem flatten_opAt? (h : opAt? f b k = some m) : f.blocks.flatten[firstPlace f b + k]? = some m := by
  obtain ⟨block, hb, hk⟩ := opAt?_some h
  rw [firstPlace, flatten_getElem? hb (List.getElem?_eq_some_iff.mp hk).1, hk]

theorem read_mem_touches (h : opAt? f b k = some m) (hr : r ∈ m.uses) :
    (r, 2 * (firstPlace f b + k)) ∈ touches f := by
  refine mem_touchesFrom 0 (flatten_opAt? h) _ ?_
  simp [hr]

theorem write_mem_touches (h : opAt? f b k = some m) (hr : r ∈ m.defs) : (r, writePosition f b k) ∈ touches f := by
  refine mem_touchesFrom 0 (flatten_opAt? h) _ ?_
  simp [hr, writePosition]

/-! The range of a virtual register. -/

private theorem le_foldl_max {α : Type} [LinearOrder α] (p : α) (ps : List α) :
    p ≤ ps.foldl max p ∧ ∀ q ∈ ps, q ≤ ps.foldl max p := by
  induction ps generalizing p with
  | nil => simp
  | cons q ps ih =>
    obtain ⟨h1, h2⟩ := ih (max p q)
    simp only [List.foldl_cons, List.mem_cons, forall_eq_or_imp]
    exact ⟨(le_max_left p q).trans h1, (le_max_right p q).trans h1, h2⟩

private theorem hull_has {q : Nat} {ps : List Nat} (h : q ∈ p :: ps) : (hull p ps).Has q := by
  obtain ⟨h1, h2⟩ := le_foldl_max (α := Natᵒᵈ) p ps
  obtain ⟨h3, h4⟩ := le_foldl_max p ps
  rcases List.mem_cons.mp h with rfl | hq
  · exact ⟨h1, h3⟩
  · exact ⟨h2 q hq, h4 q hq⟩

def positionsOf (f : Routine) (v : Nat) : List Nat :=
  (touches f).filterMap (fun (r, p) => if r = .virt v then some p else none) ++ borders f (.virt v)

theorem interval?_vreg (h : interval? f (touches f) v = some iv) : iv.vreg = v := by
  simp only [interval?] at h
  split at h
  · cases h
  · cases h; rfl

private theorem interval?_has (h : interval? f (touches f) v = some iv) (hp : p ∈ positionsOf f v) :
    iv.range.Has p := by
  simp only [interval?, positionsOf] at h hp
  split at h
  · rename_i hn
    rw [hn] at hp
    simp at hp
  · rename_i q qs hq
    rw [hq] at hp
    cases h
    exact hull_has hp

private theorem touch_mem_positions (h : (Reg.virt v, p) ∈ touches f) : p ∈ positionsOf f v := by
  refine List.mem_append_left _ (List.mem_filterMap.mpr ⟨_, h, ?_⟩)
  simp

def blockRange (f : Routine) (b : Nat) (block : List Pseudo) : Segment :=
  PlacedBlock.range ⟨firstPlace f b, block⟩

private theorem ranges_getElem? (h : f.blocks[b]? = some block) :
    ((place 0 f.blocks).map PlacedBlock.range)[b]? = some (blockRange f b block) := by
  simp [place_getElem?, h, blockRange, firstPlace]

private theorem mem_zip_of_holds {α : Type} {xs : List α} {live : List Bool} {x : α}
    (hx : xs[b]? = some x) (hl : holds live b = true) : (x, true) ∈ xs.zip live := by
  have hb : live[b]? = some true := by
    simpa [holds, List.getD_eq_getElem?_getD, Option.getD_eq_iff] using hl
  exact List.mem_of_getElem? (i := b) (by simp [List.getElem?_zip_eq_some, hx, hb])

private theorem start_mem_borders (h : f.blocks[b]? = some block) (hl : holds (liveIn f r) b = true) :
    (blockRange f b block).start ∈ borders f r := by
  refine List.mem_append_left _ (List.mem_filterMap.mpr ⟨_, mem_zip_of_holds (ranges_getElem? h) hl, ?_⟩)
  simp

private theorem stop_mem_borders (h : f.blocks[b]? = some block) (hl : holds (liveOut f r) b = true) :
    (blockRange f b block).stop ∈ borders f r := by
  refine List.mem_append_right _ (List.mem_filterMap.mpr ⟨_, mem_zip_of_holds (ranges_getElem? h) hl, ?_⟩)
  simp

theorem exposes_spec (h : exposes r insts = true) : ∃ (j : Nat) (m : Pseudo), insts[j]? = some m ∧ r ∈ m.uses := by
  induction insts with
  | nil => simp [exposes] at h
  | cons m rest ih =>
    simp only [exposes, Bool.or_eq_true, Bool.and_eq_true, List.contains_iff_mem] at h
    rcases h with hu | ⟨-, he⟩
    · exact ⟨0, m, rfl, hu⟩
    · obtain ⟨j, n, hj, hu⟩ := ih he
      exact ⟨j + 1, n, by simpa using hj, hu⟩

/-- Going back from where a register is live, it is written on the way or live at the start. -/
theorem live_origin {atEnd : Bool} (h : liveBefore r (insts.drop k) atEnd = true) :
    (∃ j m, j < k ∧ insts[j]? = some m ∧ r ∈ m.defs) ∨ liveBefore r insts atEnd = true := by
  induction insts generalizing k with
  | nil => exact .inr (by simpa using h)
  | cons m rest ih =>
    cases k with
    | zero => exact .inr (by simpa using h)
    | succ k =>
      rcases ih (k := k) (by simpa using h) with ⟨j, n, hj, hn, hd⟩ | hl
      · exact .inl ⟨j + 1, n, by omega, by simpa using hn, hd⟩
      · by_cases hd : r ∈ m.defs
        · exact .inl ⟨0, m, by omega, rfl, hd⟩
        · refine .inr ?_
          rw [liveBefore_cons]
          simp [hd, hl]

/-- A register that is live somewhere is read by some operation. -/
theorem LiveAt.touched (h : LiveAt f b k r) : ∃ p, (r, p) ∈ touches f := by
  have hread : ∀ (c : Nat) (block : List Pseudo) (i : Nat), f.blocks[c]? = some block →
      exposes r (block.drop i) = true → ∃ p, (r, p) ∈ touches f := by
    intro c block i hc he
    obtain ⟨j, n, hj, hu⟩ := exposes_spec he
    rw [List.getElem?_drop] at hj
    exact ⟨_, read_mem_touches (b := c) (k := i + j) (by simp [opAt?, hc, hj]) hu⟩
  obtain ⟨block, hb, -, hl⟩ := h
  rw [liveBefore, Bool.or_eq_true, Bool.and_eq_true, holds_liveOut hb, List.any_eq_true] at hl
  rcases hl with he | ⟨-, s, -, hs⟩
  · exact hread b block k hb he
  · obtain ⟨c, block', hc, he⟩ := exposed_of_liveIn hs
    exact hread c block' 0 hc (by simpa using he)

private theorem stop_bound (f : Routine) (b : Nat) (block : List Pseudo) (hk : k < block.length) :
    writePosition f b k ≤ (blockRange f b block).stop := by
  simp only [writePosition, blockRange, PlacedBlock.range]
  omega

theorem interval?_has_live (hm : opAt? f b k = some m) (hl : LiveAt f b (k + 1) (.virt v))
    (h : interval? f (touches f) v = some iv) : iv.range.Has (writePosition f b k) := by
  obtain ⟨block, hb, -, hl⟩ := hl
  have hk : k < block.length := by
    obtain ⟨block', hb', hk⟩ := opAt?_some hm
    rw [hb] at hb'
    cases hb'
    exact (List.getElem?_eq_some_iff.mp hk).1
  have hupper : ∃ p ∈ positionsOf f v, writePosition f b k ≤ p := by
    rw [liveBefore, Bool.or_eq_true, Bool.and_eq_true] at hl
    rcases hl with he | ⟨-, ho⟩
    · obtain ⟨j, n, hj, hu⟩ := exposes_spec he
      rw [List.getElem?_drop] at hj
      have hop : opAt? f b (k + 1 + j) = some n := by simp [opAt?, hb, hj]
      exact ⟨_, touch_mem_positions (read_mem_touches hop hu), by simp only [writePosition]; omega⟩
    · exact ⟨_, List.mem_append_right _ (stop_mem_borders hb ho), stop_bound f b block hk⟩
  have hlower : ∃ p ∈ positionsOf f v, p ≤ writePosition f b k := by
    rcases live_origin hl with ⟨j, n, hj, hn, hd⟩ | hs
    · have hop : opAt? f b j = some n := by simp [opAt?, hb, hn]
      exact ⟨_, touch_mem_positions (write_mem_touches hop hd), by simp only [writePosition]; omega⟩
    · rw [← holds_liveIn_iff hb] at hs
      refine ⟨_, List.mem_append_right _ (start_mem_borders hb hs), ?_⟩
      simp only [blockRange, PlacedBlock.range, writePosition]
      omega
  obtain ⟨p, hp, hpu⟩ := hupper
  obtain ⟨q, hq, hql⟩ := hlower
  exact ⟨Nat.le_trans (interval?_has h hq).1 hql, Nat.le_trans hpu (interval?_has h hp).2⟩

theorem interval?_has_write (hm : opAt? f b k = some m) (hd : .virt v ∈ m.defs)
    (h : interval? f (touches f) v = some iv) : iv.range.Has (writePosition f b k) :=
  interval?_has h (touch_mem_positions (write_mem_touches hm hd))

/-- A virtual register that occurs has a range. -/
theorem interval?_isSome (h : (Reg.virt v, p) ∈ touches f) : ∃ iv, interval? f (touches f) v = some iv := by
  have hp := touch_mem_positions h
  simp only [positionsOf] at hp
  simp only [interval?]
  split
  · rename_i hn
    rw [hn] at hp
    simp at hp
  · exact ⟨_, rfl⟩

/-- Every virtual register that occurs is among the intervals. -/
theorem mem_intervals (h : (Reg.virt v, p) ∈ touches f) (hiv : interval? f (touches f) v = some iv) :
    iv ∈ intervals f := by
  simp only [intervals, distinct, List.mem_mergeSort, List.mem_filterMap, List.mem_eraseDups]
  exact ⟨v, ⟨_, h, rfl⟩, hiv⟩

theorem interval?_of_mem (h : iv ∈ intervals f) : interval? f (touches f) iv.vreg = some iv := by
  simp only [intervals, List.mem_mergeSort, List.mem_filterMap] at h
  obtain ⟨v, -, hv⟩ := h
  rw [interval?_vreg hv]
  exact hv

end DirectPage.Allocation
