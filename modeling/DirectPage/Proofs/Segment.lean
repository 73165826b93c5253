import DirectPage.Proofs.Interval

/-! Segments of assigned registers cover every write of the register and every operation
behind which it is live. -/
namespace DirectPage.Allocation

private def Scan.Covers (s : Scan) (p : Nat) : Prop :=
  (∃ seg ∈ s.segments, seg.Has p) ∨ ∃ stop, s.until? = some stop ∧ p ≤ stop

private theorem scan_step_until? (r : Reg) (i : Nat) (m : Pseudo) (s : Scan) :
    (s.step r i m).until? =
      if r ∈ m.defs then (if r ∈ m.uses then some (2 * i) else none)
      else if r ∈ m.uses then s.until?.or (some (2 * i)) else s.until? := by
  by_cases hd : r ∈ m.defs <;> by_cases hu : r ∈ m.uses <;> simp [Scan.step, hd, hu]

private theorem scan_step_segments (r : Reg) (i : Nat) (m : Pseudo) (s : Scan) :
    (s.step r i m).segments =
      if r ∈ m.defs then ⟨2 * i + 1, s.until?.getD (2 * i + 1)⟩ :: s.segments else s.segments := by
  by_cases hd : r ∈ m.defs <;> by_cases hu : r ∈ m.uses <;> simp [Scan.step, hd, hu]

private theorem covers_step (r : Reg) (i : Nat) (m : Pseudo) {s : Scan} {p : Nat} (h : s.Covers p)
    (hp : 2 * i + 1 ≤ p) : (s.step r i m).Covers p := by
  rcases h with ⟨seg, hs, hh⟩ | ⟨stop, hu, hs⟩
  · refine .inl ⟨seg, ?_, hh⟩
    rw [scan_step_segments]
    split <;> simp [hs]
  · by_cases hd : r ∈ m.defs
    · refine .inl ⟨⟨2 * i + 1, stop⟩, ?_, hp, hs⟩
      rw [scan_step_segments]
      simp [hd, hu]
    · refine .inr ⟨stop, ?_, hs⟩
      rw [scan_step_until?, hu]
      by_cases hr : r ∈ m.uses <;> simp [hd, hr]

/-- A register is live before operations exactly if the scan knows a later read, which is no
earlier than the first of them. -/
private theorem scanUp_until? (r : Reg) (last : Scan) (i : Nat) (insts : List Pseudo)
    (hl : ∀ stop, last.until? = some stop → 2 * (i + insts.length) ≤ stop + 1) :
    (scanUp r last i insts).until?.isSome = liveBefore r insts last.until?.isSome ∧
      ∀ stop, (scanUp r last i insts).until? = some stop → 2 * i ≤ stop + 1 := by
  induction insts generalizing i with
  | nil => exact ⟨by simp [scanUp, liveBefore, exposes, kills], fun stop h => by simpa using hl stop h⟩
  | cons m rest ih =>
    obtain ⟨h1, h2⟩ := ih (i + 1) fun stop h => by have := hl stop h; simp only [List.length_cons] at this; omega
    rw [liveBefore_cons, scanUp, scan_step_until?, ← h1]
    constructor
    · by_cases hd : r ∈ m.defs <;> by_cases hu : r ∈ m.uses <;> simp [hd, hu]
    · intro stop
      cases hu : (scanUp r last (i + 1) rest).until? with
      | none => by_cases hd : r ∈ m.defs <;> by_cases hr : r ∈ m.uses <;> simp [hd, hr] <;> omega
      | some q =>
        have hq := h2 q hu
        by_cases hd : r ∈ m.defs <;> by_cases hr : r ∈ m.uses <;> simp [hd, hr] <;> omega

variable {k : Nat} {m : Pseudo}

/-- The position of a write is covered if the register is written there or live behind it. -/
private theorem scanUp_covers {r : Reg} (last : Scan) {insts : List Pseudo}
    (i : Nat) (hl : ∀ stop, last.until? = some stop → 2 * (i + insts.length) ≤ stop + 1)
    (hm : insts[k]? = some m)
    (h : r ∈ m.defs ∨ liveBefore r (insts.drop (k + 1)) last.until?.isSome = true) :
    (scanUp r last i insts).Covers (2 * (i + k) + 1) := by
  induction insts generalizing i k with
  | nil => simp at hm
  | cons first rest ih =>
    have hl' : ∀ stop, last.until? = some stop → 2 * (i + 1 + rest.length) ≤ stop + 1 := fun stop h => by
      have := hl stop h
      simp only [List.length_cons] at this
      omega
    obtain ⟨h1, h2⟩ := scanUp_until? r last (i + 1) rest hl'
    rw [scanUp]
    cases k with
    | succ k =>
      have hc := ih (i + 1) (k := k) hl' (by simpa using hm) (by simpa using h)
      rw [show 2 * (i + (k + 1)) + 1 = 2 * (i + 1 + k) + 1 by omega]
      exact covers_step r i first hc (by omega)
    | zero =>
      simp only [List.getElem?_cons_zero, Option.some.injEq] at hm
      subst hm
      by_cases hd : r ∈ first.defs
      · refine .inl ⟨⟨2 * i + 1, (scanUp r last (i + 1) rest).until?.getD (2 * i + 1)⟩, ?_, ?_⟩
        · rw [scan_step_segments]
          simp [hd]
        · refine ⟨by simp, ?_⟩
          cases hu : (scanUp r last (i + 1) rest).until? with
          | none => simp
          | some stop =>
            have := h2 stop hu
            simp only [Option.getD_some]
            omega
      · have hs : (scanUp r last (i + 1) rest).until?.isSome = true := by
          rw [h1]
          simpa [hd] using h
        obtain ⟨stop, hu⟩ := Option.isSome_iff_exists.mp hs
        have := h2 stop hu
        exact covers_step r i first (.inr ⟨stop, hu, by omega⟩) (by omega)

private theorem blockSegments_has {r : Reg} {b : PlacedBlock} {liveAtEnd : Bool} (hm : b.insts[k]? = some m)
    (h : r ∈ m.defs ∨ liveBefore r (b.insts.drop (k + 1)) liveAtEnd = true) :
    ∃ seg ∈ blockSegments r b liveAtEnd, seg.Has (2 * (b.first + k) + 1) := by
  simp only [blockSegments]
  have hc := scanUp_covers (r := r) ⟨if liveAtEnd then some b.range.stop else none, []⟩
    b.first (fun stop hs => by
      cases liveAtEnd <;> simp only [Bool.false_eq_true, ite_false, ite_true, reduceCtorEq,
        Option.some.injEq, PlacedBlock.range] at hs
      omega) hm (by cases liveAtEnd <;> simpa using h)
  rcases hc with ⟨seg, hs, hh⟩ | ⟨stop, hu, hs⟩
  · refine ⟨seg, ?_, hh⟩
    split <;> simp [hs]
  · refine ⟨⟨b.range.start, stop⟩, ?_, ?_, hs⟩
    · rw [hu]
      exact List.mem_cons_self
    · simp only [PlacedBlock.range]
      omega

theorem segments_has {f : Routine} {b : Nat} {r : Register} (hm : opAt? f b k = some m)
    (h : .phys r ∈ m.defs ∨ LiveAt f b (k + 1) (.phys r)) :
    ∃ seg ∈ segments f r, seg.Has (writePosition f b k) := by
  obtain ⟨block, hb, hk⟩ := opAt?_some hm
  have hlive : .phys r ∈ m.defs ∨
      liveBefore (.phys r) (block.drop (k + 1)) (holds (liveOut f (.phys r)) b) = true := by
    refine h.imp id ?_
    rintro ⟨block', hb', -, hl⟩
    rw [hb] at hb'
    cases hb'
    exact hl
  obtain ⟨seg, hs, hh⟩ := blockSegments_has (b := ⟨firstPlace f b, block⟩) hk hlive
  refine ⟨seg, List.mem_flatMap.mpr ⟨(⟨firstPlace f b, block⟩, holds (liveOut f (.phys r)) b), ?_, hs⟩, hh⟩
  have hp : (place 0 f.blocks)[b]? = some ⟨firstPlace f b, block⟩ := by
    simp [place_getElem?, hb, firstPlace]
  have hl : (liveOut f (.phys r))[b]? = some (holds (liveOut f (.phys r)) b) := by
    simp [holds, liveOut, withSuccessors_getElem?, hb]
  exact List.mem_of_getElem? (i := b) (by rw [List.getElem?_zip_eq_some]; exact ⟨hp, hl⟩)

theorem mem_usedRegisters {f : Routine} {r : Register} {p : Nat} (h : (Reg.phys r, p) ∈ touches f) :
    r ∈ usedRegisters f := by
  simp only [usedRegisters, distinct, List.mem_eraseDups, List.mem_filterMap]
  exact ⟨_, h, rfl⟩

end DirectPage.Allocation
