import DirectPage.Stream.Cleanup

/-! Streams in which instructions are left out: where the others, the labels and the branches
go. -/
namespace DirectPage

def newPlace (keep : List Bool) (i : Nat) : Nat := (keep.take i).count true

def kept {α : Type} (keep : List Bool) (xs : List α) : List α :=
  (xs.zip keep).filterMap fun (x, k) => if k then some x else none

@[simp] theorem newPlace_zero (keep : List Bool) : newPlace keep 0 = 0 := by simp [newPlace]

theorem newPlace_succ (keep : List Bool) (i : Nat) :
    newPlace keep (i + 1) = newPlace keep i + (if keep[i]? = some true then 1 else 0) := by
  induction keep generalizing i with
  | nil => simp [newPlace]
  | cons k keep ih =>
    cases i with
    | zero => cases k <;> simp [newPlace]
    | succ i =>
      have := ih i
      simp only [newPlace, List.take_succ_cons, List.count_cons, List.getElem?_cons_succ] at this ⊢
      omega

variable {i : Nat} {keep : List Bool} {j : Nat}

theorem newPlace_mono (keep : List Bool) (h : i ≤ j) : newPlace keep i ≤ newPlace keep j := by
  induction h with
  | refl => exact Nat.le_refl _
  | step _ ih =>
    rw [newPlace_succ]
    omega

/-- An instruction that stays is before everything that was behind it. -/
theorem newPlace_lt (hk : keep[i]? = some true) (h : i < j) : newPlace keep i < newPlace keep j := by
  have h1 := newPlace_succ keep i
  have h2 := newPlace_mono keep (show i + 1 ≤ j from h)
  rw [if_pos hk] at h1
  omega

theorem newPlace_of_le (h : keep.length ≤ i) : newPlace keep i = keep.count true := by
  rw [newPlace, List.take_of_length_le h]

theorem newPlace_append (keep more : List Bool) (h : i ≤ keep.length) :
    newPlace (keep ++ more) i = newPlace keep i := by
  rw [newPlace, newPlace, List.take_append_of_le_length h]

private theorem newPlaces_getElem? (first : Nat) (keep : List Bool) (h : i ≤ keep.length) :
    (newPlaces first keep)[i]? = some (first + newPlace keep i) := by
  induction keep generalizing first i with
  | nil =>
    obtain rfl : i = 0 := by simpa using h
    simp [newPlaces]
  | cons k keep ih =>
    cases i with
    | zero => simp [newPlaces]
    | succ i =>
      rw [newPlaces, List.getElem?_cons_succ, ih _ (by simpa using h)]
      cases k <;> simp [newPlace]
      omega

section Kept

variable {α : Type}

theorem kept_cons (k : Bool) (keep : List Bool) (x : α) (xs : List α) :
    kept (k :: keep) (x :: xs) = if k then x :: kept keep xs else kept keep xs := by
  cases k <;> simp [kept]

variable {keep : List Bool} {xs : List α}

theorem kept_append (h : keep.length = xs.length) (more : List Bool) (ys : List α) :
    kept (keep ++ more) (xs ++ ys) = kept keep xs ++ kept more ys := by
  simp [kept, List.zip_append h.symm]

theorem kept_length (h : keep.length = xs.length) : (kept keep xs).length = keep.count true := by
  induction keep generalizing xs with
  | nil => simp [kept]
  | cons k keep ih =>
    cases xs with
    | nil => simp at h
    | cons x xs =>
      have hlen : (kept keep xs).length = keep.count true := ih (by simpa using h)
      cases k <;> simp [kept_cons, hlen]

/-- An instruction that stays is found at its new place. -/
theorem kept_getElem? {i : Nat} (h : keep.length = xs.length) (hk : keep[i]? = some true) :
    (kept keep xs)[newPlace keep i]? = xs[i]? := by
  induction keep generalizing xs i with
  | nil => simp at hk
  | cons k keep ih =>
    cases xs with
    | nil => simp at h
    | cons x xs =>
      cases i with
      | zero =>
        obtain rfl : k = true := by simpa using hk
        simp [kept_cons]
      | succ i =>
        have hi : (kept keep xs)[newPlace keep i]? = xs[i]? := ih (by simpa using h) (by simpa using hk)
        cases k <;> simpa [kept_cons, newPlace, List.count_cons] using hi

theorem exists_newPlace {j : Nat} (h : j < keep.count true) :
    ∃ i : Nat, keep[i]? = some true ∧ newPlace keep i = j := by
  induction keep generalizing j with
  | nil => simp at h
  | cons k keep ih =>
    cases k with
    | false =>
      obtain ⟨i, hi, he⟩ := ih (j := j) (by simpa using h)
      exact ⟨i + 1, by simpa using hi, by simpa [newPlace, List.count_cons] using he⟩
    | true =>
      cases j with
      | zero => exact ⟨0, by simp, by simp⟩
      | succ j =>
        obtain ⟨i, hi, he⟩ := ih (j := j) (by simpa using h)
        exact ⟨i + 1, by simpa using hi, by simpa [newPlace, List.count_cons] using he⟩

end Kept

def LabelDef.move (keep : List Bool) : LabelDef → LabelDef
  | .instr i => .instr (newPlace keep i)
  | d => d

namespace Stream

theorem retain_eq (s : Stream) (keep : List Bool) :
    s.retain keep = { s with
      instructions := (kept keep s.instructions.toList).toArray
      labels := s.labels.map (·.map (LabelDef.move keep))
      fixups := s.fixups.filterMap fun (i, label) =>
        if keep[i]? = some true then some (newPlace keep i, label) else none } := by
  have hmoved (i : Nat) :
      (newPlaces 0 keep).toArray.getD (min i keep.length) 0 = newPlace keep i := by
    rw [Array.getD_eq_getD_getElem?, List.getElem?_toArray,
      newPlaces_getElem? 0 keep (Nat.min_le_right _ _), Option.getD_some, Nat.zero_add]
    by_cases h : i ≤ keep.length
    · rw [Nat.min_eq_left h]
    · rw [Nat.min_eq_right (by omega), newPlace_of_le (Nat.le_refl _), newPlace_of_le (by omega)]
  have hkept (i : Nat) : keep.toArray.getD i false = true ↔ keep[i]? = some true := by
    rw [Array.getD_eq_getD_getElem?, List.getElem?_toArray]
    cases keep[i]? <;> simp
  simp only [retain, hmoved, hkept, kept, Stream.mk.injEq, true_and, and_true]
  refine List.map_congr_left fun l _ => ?_
  rcases l with _ | ⟨i⟩ | ⟨offset⟩ <;> rfl

/-- What expansion and cleanup keep: branches that wait for a displacement are short branches,
in order, and labels are bound to instructions or to the end. -/
structure WellFormed (s : Stream) : Prop where
  fixups_sorted : s.fixups.Pairwise fun p q => p.1 < q.1
  fixups_short : ∀ i label, (i, label) ∈ s.fixups →
    ∃ instr, s.instructions[i]? = some instr ∧ instr.relaxed?.isSome = true
  labels_le : ∀ (label i : Nat), s.labels[label]? = some (some (.instr i)) → i ≤ s.instructions.size

variable {s : Stream}

theorem WellFormed.fixup_lt (h : s.WellFormed) {i label : Nat} (hf : (i, label) ∈ s.fixups) :
    i < s.instructions.size := by
  obtain ⟨instr, hi, -⟩ := h.fixups_short i label hf
  exact (Array.getElem?_eq_some_iff.mp hi).1

/-- A branch waits for one label only. -/
theorem WellFormed.fixup_unique (h : s.WellFormed) {i l l' : Nat} (hl : (i, l) ∈ s.fixups) (hl' : (i, l') ∈ s.fixups) :
    l = l' := by
  have hs := h.fixups_sorted
  generalize s.fixups = fs at hl hl' hs
  induction fs with
  | nil => cases hl
  | cons p fs ih =>
    obtain ⟨hp, hs⟩ := List.pairwise_cons.mp hs
    rcases List.mem_cons.mp hl with he | hm <;> rcases List.mem_cons.mp hl' with he' | hm'
    · rw [← he] at he'
      exact (Prod.mk.inj he').2.symm
    · rw [← he] at hp
      exact absurd (hp _ hm') (Nat.lt_irrefl _)
    · rw [← he'] at hp
      exact absurd (hp _ hm) (Nat.lt_irrefl _)
    · exact ih hm hm' hs

section Build

variable {s : Stream} (h : s.WellFormed)
include h

theorem WellFormed.newLabel : s.newLabel.2.WellFormed where
  fixups_sorted := h.fixups_sorted
  fixups_short := h.fixups_short
  labels_le label i hl := by
    simp only [Stream.newLabel] at hl ⊢
    rw [List.getElem?_append] at hl
    split at hl
    · exact h.labels_le label i hl
    · cases hk : label - s.labels.length <;> simp [hk] at hl

theorem WellFormed.define (label : Nat) : (s.define label).WellFormed where
  fixups_sorted := h.fixups_sorted
  fixups_short := h.fixups_short
  labels_le l i hl := by
    simp only [Stream.define, List.getElem?_set] at hl ⊢
    split at hl
    · split at hl
      · cases hl
        exact Nat.le_refl _
      · cases hl
    · exact h.labels_le l i hl

private theorem append_short (instr : Instruction) : ∀ i label, (i, label) ∈ s.fixups →
    ∃ j, (s.instructions.push instr)[i]? = some j ∧ j.relaxed?.isSome = true := by
  intro i label hf
  obtain ⟨j, hj, hr⟩ := h.fixups_short i label hf
  refine ⟨j, ?_, hr⟩
  rw [Array.getElem?_push, if_neg (by have := h.fixup_lt hf; omega), hj]

theorem WellFormed.emit (instr : Instruction) : (s.emit instr).WellFormed where
  fixups_sorted := h.fixups_sorted
  fixups_short := append_short h instr
  labels_le label i hl := by
    have := h.labels_le label i hl
    simp only [Stream.emit, Array.size_push]
    omega

theorem WellFormed.emitBranch (cond : Option BranchCond) (label : Nat) :
    (s.emitBranch cond label).WellFormed where
  fixups_sorted := by
    simp only [Stream.emitBranch, List.pairwise_append, h.fixups_sorted, List.pairwise_singleton,
      List.mem_singleton, true_and]
    rintro ⟨i, l⟩ hf _ rfl
    exact h.fixup_lt hf
  fixups_short i l hf := by
    simp only [Stream.emitBranch, List.mem_append, List.mem_singleton, Prod.mk.injEq] at hf ⊢
    rcases hf with hf | ⟨rfl, rfl⟩
    · exact append_short h _ i l hf
    · refine ⟨_, Array.getElem?_push_size, ?_⟩
      cases cond <;> rfl
  labels_le l i hl := by
    have := h.labels_le l i hl
    simp only [Stream.emitBranch, Array.size_push]
    omega

theorem WellFormed.retain {keep : List Bool} (hk : keep.length = s.instructions.size) :
    (s.retain keep).WellFormed := by
  have hlen : keep.length = s.instructions.toList.length := by simpa using hk
  rw [retain_eq]
  refine ⟨?_, ?_, ?_⟩
  · refine List.Pairwise.filterMap _ ?_ h.fixups_sorted
    rintro ⟨i, l⟩ ⟨j, l'⟩ hij p hp q hq
    simp only [Option.ite_none_right_eq_some, Option.some.injEq] at hp hq
    obtain ⟨hki, rfl⟩ := hp
    obtain ⟨-, rfl⟩ := hq
    exact newPlace_lt hki hij
  · intro j label hf
    simp only [List.mem_filterMap, Prod.exists, Option.ite_none_right_eq_some, Option.some.injEq,
      Prod.mk.injEq] at hf
    obtain ⟨i, l, hf, hki, rfl, rfl⟩ := hf
    obtain ⟨instr, hi, hr⟩ := h.fixups_short i l hf
    refine ⟨instr, ?_, hr⟩
    rw [List.getElem?_toArray, kept_getElem? hlen hki, Array.getElem?_toList, hi]
  · intro label j hl
    simp only [List.getElem?_map, Option.map_eq_some_iff] at hl
    obtain ⟨_, hd, d, rfl, hm⟩ := hl
    rw [List.size_toArray, kept_length hlen]
    cases d with
    | instr i =>
      cases hm
      have := newPlace_mono keep (h.labels_le label i hd)
      rwa [newPlace_of_le (by omega) (i := s.instructions.size)] at this
    | pool offset => cases hm

end Build

theorem WellFormed.empty (name : String) (blocks : Nat) (pool : List (List UInt8)) :
    (Stream.empty name blocks pool).WellFormed where
  fixups_sorted := List.Pairwise.nil
  fixups_short i l hf := by simp [Stream.empty] at hf
  labels_le label i hl := by
    have hpool : ∀ (pool : List (List UInt8)) (offset label : Nat),
        (poolLabels offset pool)[label]? ≠ some (some (.instr i)) := by
      intro pool
      induction pool with
      | nil => simp [poolLabels]
      | cons entry pool ih =>
        intro offset label
        cases label with
        | zero => simp [poolLabels]
        | succ label => simpa [poolLabels] using ih _ label
    simp only [Stream.empty, List.getElem?_append, List.getElem?_replicate] at hl
    split at hl
    · split at hl <;> cases hl
    · exact absurd hl (hpool pool 0 _)

theorem keepFrom_length (dropped : List Nat) (labelled : Nat → Bool) (prev : Option Instruction)
    (i : Nat) (is : List Instruction) : (keepFrom dropped labelled prev i is).length = is.length := by
  induction is generalizing prev i with
  | nil => rfl
  | cons cur rest ih => simp [keepFrom, ih]

@[simp] theorem keeps_length (s : Stream) : s.keeps.length = s.instructions.size := by
  simp [keeps, keepFrom_length]

theorem clean_keeps {P : Stream → Prop} (hr : ∀ s, P s → P s.cleanRound) (s : Stream) (h : P s) :
    P s.clean := by
  fun_induction clean s with
  | case1 s next hlt ih => exact ih (hr s h)
  | case2 s next hge => exact h

theorem WellFormed.clean (h : s.WellFormed) : s.clean.WellFormed :=
  clean_keeps (fun s hs => hs.retain s.keeps_length) s h

end Stream

end DirectPage
