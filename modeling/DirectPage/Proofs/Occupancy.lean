import DirectPage.Proofs.LinearScan

/-! Linear scan with the taken ranges as a function in place of a table.

A scan only ever looks up what is taken, so the two give the same result, and the second one
can be evaluated by the kernel. -/
namespace DirectPage.Allocation

structure Scanned where
  map : List (Nat × Register) := []
  spilled : List Nat := []
  taken : Register → List Segment

def ScanState.view (st : ScanState) : Scanned := ⟨st.map, st.spilled, fun r => st.occupied.getD r []⟩

def Setting.viewStep (s : Setting) (st : Scanned) (iv : Interval) : Checked Scanned := do
  let cls ← orFail (.internal (.noClass iv.vreg)) (s.routine.classOf? iv.vreg)
  let cands := s.candidates cls iv.range
  match (s.preferred st.map cls iv.vreg ++ cands).find? fun r => !(st.taken r).any iv.range.overlaps with
  | some r =>
    return { st with
      map := (iv.vreg, r) :: st.map
      taken := fun q => if r = q then iv.range :: st.taken r else st.taken q }
  | none =>
    let v ← orFail (.registerClassExhausted cls s.routine.name)
      (s.victim? ⟨st.map, st.spilled, {}⟩ cands iv)
    return { st with spilled := st.spilled ++ [v] }

def takenBy (f : Routine) : Register → List Segment := fun r => if r ∈ usedRegisters f then segments f r else []

theorem getD_occupiedBy_eq (f : Routine) (r : Register) : (occupiedBy f).getD r [] = takenBy f r := by
  have hgen : ∀ (rs : List Register) (o : Occupied),
      (rs.foldl (fun o r => o.insert r (segments f r)) o).getD r [] =
        if r ∈ rs then segments f r else o.getD r [] := by
    intro rs
    induction rs with
    | nil => simp
    | cons s rs ih =>
      intro o
      rw [List.foldl_cons, ih, Std.HashMap.getD_insert]
      grind
  rw [occupiedBy, hgen, takenBy, Std.HashMap.getD_empty]

theorem view_step (s : Setting) (st : ScanState) (iv : Interval) :
    ScanState.view <$> s.step st iv = s.viewStep st.view iv := by
  simp only [Setting.step, Setting.viewStep]
  cases orFail (.internal (.noClass iv.vreg)) (s.routine.classOf? iv.vreg) with
  | error => rfl
  | ok cls =>
    simp only [ok_bind]
    have hf : isFree st.occupied iv.range = fun r => !(st.view.taken r).any iv.range.overlaps := rfl
    rw [hf]
    change _ <$> (match List.find? _ (s.preferred st.view.map cls iv.vreg ++ _) with | some r => _ | none => _) = _
    split
    · refine congrArg Except.ok ?_
      simp only [ScanState.view, Scanned.mk.injEq, true_and]
      exact funext fun q => getD_occupy _ _ _ _
    · change _ <$> (orFail _ (s.victim? ⟨st.map, st.spilled, {}⟩ _ _) >>= _) =
        orFail _ (s.victim? ⟨st.map, st.spilled, {}⟩ _ _) >>= _
      cases orFail (.registerClassExhausted cls s.routine.name)
        (s.victim? ⟨st.map, st.spilled, {}⟩ (s.candidates cls iv.range) iv) <;> rfl

theorem view_foldlM (s : Setting) (ivs : List Interval) (st : ScanState) :
    ScanState.view <$> ivs.foldlM s.step st = ivs.foldlM s.viewStep st.view := by
  induction ivs generalizing st with
  | nil => rfl
  | cons iv ivs ih =>
    rw [List.foldlM_cons, List.foldlM_cons, ← view_step]
    cases s.step st iv with
    | error => rfl
    | ok mid => exact ih mid

def viewScan (f : Routine) (reserved : Reserved) (ivs : List Interval) : Checked (List (Nat × Register) × List Nat) :=
  (fun st => (st.map, st.spilled)) <$>
    ivs.foldlM (Setting.viewStep ⟨f, reserved, ivs, callPoints f, copies f⟩) { taken := takenBy f }

/-- Intervals that come in order are not sorted further. -/
theorem intervals_eq {f : Routine} {ivs : List Interval}
    (h : (distinct ((touches f).filterMap (·.1.virt?))).filterMap (interval? f (touches f)) = ivs)
    (hs : ivs.Pairwise (·.before ·)) : intervals f = ivs := by
  rw [intervals, h]
  exact List.mergeSort_of_pairwise hs

/-- The result of a scan by a computation without a table. -/
theorem linearScan_eq {f : Routine} (reserved : Reserved) {ivs : List Interval} (ht : targetsExist f = true)
    (hi : intervals f = ivs) : linearScan f reserved =
      (fun scanned => ⟨scanned.1, calleeSavedIn scanned.1, scanned.2⟩) <$> viewScan f reserved ivs := by
  have hstart : (⟨[], [], takenBy f⟩ : Scanned) = ScanState.view ⟨[], [], occupiedBy f⟩ := by
    rw [ScanState.view, show (fun r => (occupiedBy f).getD r []) = takenBy f from funext (getD_occupiedBy_eq f)]
  subst hi
  simp only [linearScan, viewScan, ht, Bool.not_true, Bool.false_eq_true, if_false]
  rw [hstart, ← view_foldlM]
  cases (intervals f).foldlM (Setting.step ⟨f, reserved, intervals f, callPoints f, copies f⟩)
    ⟨[], [], occupiedBy f⟩ <;> rfl

end DirectPage.Allocation
