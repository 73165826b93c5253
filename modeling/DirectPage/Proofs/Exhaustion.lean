import Mathlib.Data.List.Nodup
import DirectPage.Proofs.Occupancy

/-! When a class of registers is exhausted.

Only a temporary can run out of registers. A value that is spilled for the sake of a temporary
keeps its register for the rest of the scan, and is not spilled a second time, so the registers
that a temporary finds taken include those of values that earlier temporaries were to have. -/
namespace DirectPage.Allocation

def settingOf (f : Routine) (reserved : Reserved) : Setting :=
  ⟨f, reserved, intervals f, callPoints f, copies f⟩

def Reaches (f : Routine) (reserved : Reserved) (past : List Interval) (st : ScanState) : Prop :=
  past.foldlM (settingOf f reserved).step { occupied := occupiedBy f } = .ok st

def ScanState.Evicted (st : ScanState) (v : Nat) : Prop :=
  (st.map.lookup v).isSome = true ∧ v ∈ st.spilled

inductive Blocked (f : Routine) (st : ScanState) (range : Segment) (r : Register) : Prop
  /-- The function itself uses it. -/
  | fixed (seg : Segment) (used : seg ∈ segments f r) (meets : range.overlaps seg = true)
  /-- A temporary has it. -/
  | temporary (iv : Interval) (interval : iv ∈ intervals f)
      (has : st.map.lookup iv.vreg = some r) (temp : f.isTemp iv.vreg = true)
      (meets : range.overlaps iv.range = true)
  /-- A value has it that made way for a temporary before. -/
  | evicted (iv : Interval) (interval : iv ∈ intervals f)
      (has : st.map.lookup iv.vreg = some r) (gone : st.Evicted iv.vreg)
      (meets : range.overlaps iv.range = true)

/-- For whose sake values are spilled: each ordinary value that lost its place has a temporary
of its own among the intervals scanned, which it meets and which got no register. -/
structure Evictions (f : Routine) (past : List Interval) (st : ScanState) (cause : Nat → Interval) : Prop where
  ordinary : ∀ v, st.Evicted v → f.isTemp v = false
  temp : ∀ v, st.Evicted v → cause v ∈ past ∧ f.isTemp (cause v).vreg = true
  unplaced : ∀ v, st.Evicted v → st.map.lookup (cause v).vreg = none
  meets : ∀ v iv, st.Evicted v → interval? f (touches f) v = some iv → iv.range.overlaps (cause v).range = true
  distinct : ∀ v w, st.Evicted v → st.Evicted w → (cause v).vreg = (cause w).vreg → v = w

structure Ledger (f : Routine) (past : List Interval) (st : ScanState) : Prop where
  mapped : ∀ v r, st.map.lookup v = some r → v ∈ past.map Interval.vreg
  spilled : ∀ v ∈ st.spilled, v ∈ past.map Interval.vreg
  held : ∀ r, ∀ seg ∈ st.occupied.getD r [], seg ∈ segments f r ∨
    ∃ iv ∈ intervals f, st.map.lookup iv.vreg = some r ∧ iv.range = seg
  evictions : ∃ cause, Evictions f past st cause

theorem Ledger.start (f : Routine) : Ledger f [] { occupied := occupiedBy f } where
  mapped v r h := by cases h
  spilled v h := by cases h
  held r seg h := by
    rw [getD_occupiedBy_eq, takenBy] at h
    split at h
    · exact .inl h
    · cases h
  evictions := ⟨fun _ => ⟨0, ⟨0, 0⟩⟩, by constructor <;> rintro v <;> simp [ScanState.Evicted]⟩

/-! One step. -/

variable {iv : Interval} {st : ScanState} {s : Setting}

/-- A step runs out of registers if no candidate is free and no value can make way. -/
theorem Setting.step_exhausted {cls : RegClass} {name : String}
    (h : s.step st iv = fail (.registerClassExhausted cls name)) :
    s.routine.classOf? iv.vreg = some cls ∧ name = s.routine.name ∧
      (∀ r ∈ s.candidates cls iv.range, isFree st.occupied iv.range r = false) ∧
      s.victim? st (s.candidates cls iv.range) iv = none := by
  rw [Setting.step] at h
  cases hc : s.routine.classOf? iv.vreg with
  | none =>
    rw [hc] at h
    cases h
  | some c =>
    rw [hc] at h
    simp only [orFail, ok_bind] at h
    split at h
    · cases h
    · next hnone =>
      rw [List.find?_eq_none] at hnone
      cases hv : s.victim? st (s.candidates c iv.range) iv with
      | some v =>
        rw [hv] at h
        cases h
      | none =>
        rw [hv] at h
        cases h
        exact ⟨rfl, rfl, fun r hr => by simpa using hnone r (List.mem_append_right _ hr), hv⟩

private theorem mem_of_longest {ivs : List Interval} (h : Setting.longest ivs = some iv) : iv ∈ ivs := by
  have hfold (rest : List Interval) (best : Interval) :
      rest.foldl (fun best next => if Setting.livesLonger next best then next else best) best ∈ best :: rest := by
    induction rest generalizing best with
    | nil => exact List.mem_cons_self
    | cons next rest ih =>
      rw [List.foldl_cons]
      rcases List.mem_cons.mp (ih (if Setting.livesLonger next best then next else best)) with he | hm
      · rw [he]
        split <;> simp
      · exact List.mem_cons_of_mem _ (List.mem_cons_of_mem _ hm)
  cases ivs with
  | nil => cases h
  | cons first rest =>
    cases h
    exact hfold rest first

variable {cands : List Register}

/-- A value that yields has a register among the candidates, is ordinary and meets the range. -/
theorem canYield_iff {range : Segment} :
    s.canYield st cands range iv = true ↔ ∃ r ∈ cands, st.map.lookup iv.vreg = some r ∧
      s.routine.isTemp iv.vreg = false ∧ iv.vreg ∉ st.spilled ∧ iv.range.overlaps range = true := by
  simp only [Setting.canYield]
  cases st.map.lookup iv.vreg with
  | none => simp
  | some r => simp; grind

theorem victim?_cases {v : Nat} (h : s.victim? st cands iv = some v) :
    s.routine.isTemp iv.vreg = false ∧ v = iv.vreg ∨
      s.routine.isTemp iv.vreg = true ∧
        ∃ jv ∈ s.intervals, jv.vreg = v ∧ s.canYield st cands iv.range jv = true := by
  rw [Setting.victim?] at h
  split at h
  · next ht =>
    obtain ⟨jv, hj, rfl⟩ := Option.map_eq_some_iff.mp h
    obtain ⟨hm, hy⟩ := List.mem_filter.mp (mem_of_longest hj)
    exact .inr ⟨ht, jv, hm, rfl, hy⟩
  · next ht =>
    cases h
    exact .inl ⟨by simpa using ht, rfl⟩

private theorem victim?_eq_none (h : s.victim? st cands iv = none) : s.routine.isTemp iv.vreg = true ∧
      ∀ jv ∈ s.intervals, s.canYield st cands iv.range jv = false := by
  rw [Setting.victim?] at h
  split at h
  · next ht =>
    refine ⟨ht, fun jv hj => ?_⟩
    rw [Option.map_eq_none_iff] at h
    cases hf : s.intervals.filter (s.canYield st cands iv.range) with
    | cons first rest =>
      rw [hf] at h
      cases h
    | nil => simpa using List.filter_eq_nil_iff.mp hf jv hj
  · cases h

section Step

variable {s : Setting} {past : List Interval} {st st' : ScanState} {iv : Interval} {cause : Nat → Interval}

section

variable (h : Evictions s.routine past st cause) (hl : Ledger s.routine past st)
  (hnew : iv.vreg ∉ past.map Interval.vreg)

include h hl hnew

private theorem Evictions.take (r : Register) (occupied : Occupied) :
    Evictions s.routine (past ++ [iv]) ⟨(iv.vreg, r) :: st.map, st.spilled, occupied⟩ cause := by
  have hback {v : Nat} (he : ScanState.Evicted ⟨(iv.vreg, r) :: st.map, st.spilled, occupied⟩ v) : st.Evicted v := by
    obtain ⟨hm, hs⟩ := he
    refine ⟨?_, hs⟩
    have hne : v ≠ iv.vreg := fun h => hnew (h ▸ hl.spilled v hs)
    rwa [lookup_cons, if_neg hne] at hm
  refine ⟨fun v he => h.ordinary v (hback he), fun v he => ?_, fun v he => ?_,
    fun v jv he => h.meets v jv (hback he), fun v w hv hw => h.distinct v w (hback hv) (hback hw)⟩
  · exact ⟨List.mem_append_left _ (h.temp v (hback he)).1, (h.temp v (hback he)).2⟩
  · have hne : (cause v).vreg ≠ iv.vreg := fun heq => hnew (heq ▸ List.mem_map_of_mem (h.temp v (hback he)).1)
    rw [lookup_cons, if_neg hne]
    exact h.unplaced v (hback he)

/-- A value that finds no register is spilled without having had one. -/
private theorem Evictions.give :
    Evictions s.routine (past ++ [iv]) { st with spilled := st.spilled ++ [iv.vreg] } cause := by
  have hback {v : Nat} (he : ScanState.Evicted { st with spilled := st.spilled ++ [iv.vreg] } v) : st.Evicted v := by
    obtain ⟨hm, hs⟩ := he
    obtain ⟨r, hr⟩ := Option.isSome_iff_exists.mp hm
    refine ⟨hm, (List.mem_append.mp hs).resolve_right fun hv => hnew ?_⟩
    rw [← List.mem_singleton.mp hv]
    exact hl.mapped v r hr
  exact ⟨fun v he => h.ordinary v (hback he),
    fun v he => ⟨List.mem_append_left _ (h.temp v (hback he)).1, (h.temp v (hback he)).2⟩,
    fun v he => h.unplaced v (hback he), fun v jv he => h.meets v jv (hback he),
    fun v w hv hw => h.distinct v w (hback hv) (hback hw)⟩

/-- A value that yields to a temporary has that temporary as its own. -/
private theorem Evictions.evict (ht : s.routine.isTemp iv.vreg = true) {jv : Interval}
    (hj : interval? s.routine (touches s.routine) jv.vreg = some jv) (hord : s.routine.isTemp jv.vreg = false)
    (hmeets : jv.range.overlaps iv.range = true) :
    Evictions s.routine (past ++ [iv]) { st with spilled := st.spilled ++ [jv.vreg] }
      fun v => if v = jv.vreg then iv else cause v := by
  have hback {v : Nat} (he : ScanState.Evicted { st with spilled := st.spilled ++ [jv.vreg] } v)
      (hne : v ≠ jv.vreg) : st.Evicted v :=
    ⟨he.1, (List.mem_append.mp he.2).resolve_right fun hv => hne (List.mem_singleton.mp hv)⟩
  have hfresh : ∀ v, st.Evicted v → (cause v).vreg ≠ iv.vreg :=
    fun v he heq => hnew (heq ▸ List.mem_map_of_mem (h.temp v he).1)
  have hnone : st.map.lookup iv.vreg = none := by
    rw [Option.eq_none_iff_forall_ne_some]
    exact fun r hr => hnew (hl.mapped _ r hr)
  constructor
  · intro v he
    by_cases hv : v = jv.vreg
    · rw [hv, hord]
    · exact h.ordinary v (hback he hv)
  · intro v he
    by_cases hv : v = jv.vreg
    · rw [if_pos hv]
      exact ⟨List.mem_append_right _ List.mem_cons_self, ht⟩
    · rw [if_neg hv]
      exact ⟨List.mem_append_left _ (h.temp v (hback he hv)).1, (h.temp v (hback he hv)).2⟩
  · intro v he
    by_cases hv : v = jv.vreg
    · rw [if_pos hv]
      exact hnone
    · rw [if_neg hv]
      exact h.unplaced v (hback he hv)
  · intro v kv he hk
    by_cases hv : v = jv.vreg
    · rw [if_pos hv]
      rw [hv, hj] at hk
      cases hk
      exact hmeets
    · rw [if_neg hv]
      exact h.meets v kv (hback he hv) hk
  · intro v w hv hw heq
    by_cases h1 : v = jv.vreg <;> by_cases h2 : w = jv.vreg
    · rw [h1, h2]
    · rw [if_pos h1, if_neg h2] at heq
      exact absurd heq.symm (hfresh w (hback hw h2))
    · rw [if_neg h1, if_pos h2] at heq
      exact absurd heq (hfresh v (hback hv h1))
    · rw [if_neg h1, if_neg h2] at heq
      exact h.distinct v w (hback hv h1) (hback hw h2) heq

end

/-- A step keeps the books. -/
theorem Ledger.step (hl : Ledger s.routine past st)
    (hs : s.intervals = intervals s.routine) (hiv : iv ∈ intervals s.routine) (hnew : iv.vreg ∉ past.map Interval.vreg)
    (h : s.step st iv = .ok st') :
    Ledger s.routine (past ++ [iv]) st' := by
  have hpast {v : Nat} (hv : v ∈ past.map Interval.vreg) : v ∈ (past ++ [iv]).map Interval.vreg := by
    rw [List.map_append]
    exact List.mem_append_left _ hv
  have hself : iv.vreg ∈ (past ++ [iv]).map Interval.vreg := by simp
  obtain ⟨cause, hcause⟩ := hl.evictions
  obtain ⟨cls, -, ⟨r, -, -, -, rfl⟩ | ⟨v, hv, rfl⟩⟩ := Setting.step_cases h
  · refine ⟨fun v q hq => ?_, fun v hv => hpast (hl.spilled v hv), fun q seg hseg => ?_,
      cause, hcause.take hl hnew r _⟩
    · rw [lookup_cons] at hq
      split at hq
      · next he => exact he ▸ hself
      · exact hpast (hl.mapped v q hq)
    · have hold : seg ∈ st.occupied.getD q [] → seg ∈ segments s.routine q ∨
          ∃ jv ∈ intervals s.routine, ((iv.vreg, r) :: st.map).lookup jv.vreg = some q ∧ jv.range = seg := by
        intro hm
        refine (hl.held q seg hm).imp id ?_
        rintro ⟨jv, hj, hq, hr⟩
        have hne : jv.vreg ≠ iv.vreg := fun he => hnew (he ▸ hl.mapped _ q hq)
        exact ⟨jv, hj, by rw [lookup_cons, if_neg hne, hq], hr⟩
      rw [getD_occupy] at hseg
      split at hseg
      · next he =>
        subst he
        rcases List.mem_cons.mp hseg with rfl | hm
        · exact .inr ⟨iv, hiv, by rw [lookup_cons, if_pos rfl], rfl⟩
        · exact hold hm
      · exact hold hseg
  · have hspilled : v ∈ (past ++ [iv]).map Interval.vreg ∧
        ∃ cause', Evictions s.routine (past ++ [iv]) { st with spilled := st.spilled ++ [v] } cause' := by
      obtain ⟨-, rfl⟩ | ⟨ht, jv, hj, rfl, hy⟩ := victim?_cases hv
      · exact ⟨hself, cause, hcause.give hl hnew⟩
      · obtain ⟨q, -, hq, hord, -, hmeets⟩ := canYield_iff.mp hy
        exact ⟨hpast (hl.mapped _ q hq), _, hcause.evict hl hnew ht (interval?_of_mem (hs ▸ hj)) hord hmeets⟩
    refine ⟨fun w q hq => hpast (hl.mapped w q hq), fun w hw => ?_, hl.held, hspilled.2⟩
    rcases List.mem_append.mp hw with hw | hw
    · exact hpast (hl.spilled w hw)
    · rw [List.mem_singleton.mp hw]
      exact hspilled.1

end Step

/-! The whole scan. -/

private theorem nodup_distinct (xs : List Nat) : (distinct xs).Nodup := by
  induction h : xs.length using Nat.strongRecOn generalizing xs with
  | ind n ih =>
    cases xs with
    | nil => exact List.nodup_nil
    | cons x xs =>
      rw [distinct, List.eraseDups_cons, List.nodup_cons]
      refine ⟨by simp [List.mem_eraseDups], ih _ ?_ _ rfl⟩
      have := List.length_filter_le (fun y => !y == x) xs
      rw [← h, List.length_cons]
      omega

/-- Every virtual register has one interval. -/
theorem nodup_intervals (f : Routine) : ((intervals f).map Interval.vreg).Nodup := by
  have hperm : ((intervals f).map Interval.vreg).Perm
      (((distinct ((touches f).filterMap (·.1.virt?))).filterMap (interval? f (touches f))).map Interval.vreg) :=
    (List.mergeSort_perm _ _).map _
  rw [hperm.nodup_iff, List.map_filterMap]
  refine List.Nodup.filterMap ?_ (nodup_distinct _)
  intro v w u hv hw
  simp only [Option.mem_def, Option.map_eq_some_iff] at hv hw
  obtain ⟨iv, hiv, rfl⟩ := hv
  obtain ⟨jv, hjv, he⟩ := hw
  rw [← interval?_vreg hiv, ← interval?_vreg hjv, he]

section Scan

variable {f : Routine} {reserved : Reserved} {past rest : List Interval} {iv : Interval} {st : ScanState}
  {range : Segment} {r : Register}

/-- The books are kept all through a scan. -/
theorem Reaches.ledger (h : Reaches f reserved past st) (hp : intervals f = past ++ rest) : Ledger f past st := by
  have hgen : ∀ (mid start : List Interval) (st1 : ScanState), Ledger f start st1 →
      intervals f = start ++ mid ++ rest → mid.foldlM (settingOf f reserved).step st1 = .ok st →
      Ledger f (start ++ mid) st := by
    intro mid
    induction mid with
    | nil =>
      intro start st1 hl _ hf
      cases hf
      rwa [List.append_nil]
    | cons iv mid ih =>
      intro start st1 hl hi hf
      rw [List.foldlM_cons, bind_eq_ok] at hf
      obtain ⟨st2, h2, hf⟩ := hf
      have hnodup := nodup_intervals f
      rw [hi, List.append_assoc, List.map_append, List.nodup_append] at hnodup
      have hnew : iv.vreg ∉ start.map Interval.vreg := fun hm => hnodup.2.2 _ hm _ (by simp) rfl
      have hiv : iv ∈ intervals f := by simp [hi]
      have hl2 := Ledger.step (s := settingOf f reserved) hl rfl hiv hnew h2
      rw [List.append_cons]
      exact ih (start ++ [iv]) st2 hl2 (by rw [hi, List.append_cons]) hf
  exact hgen past [] _ (Ledger.start f) (by rw [hp]; rfl) h

private theorem mem_candidates_of_allocatable {s : Setting} {cls : RegClass} (h : r ∈ s.reserved.allocatable cls) :
    r ∈ s.candidates cls range := by
  rw [Setting.candidates]
  split
  · cases hr : r.isCalleeSaved <;> simp [h, hr]
  · exact h

/-- A register that is not free is blocked, unless an ordinary value has it that can still make way. -/
private theorem blocked_of_not_free (hl : Ledger f past st) (hf : isFree st.occupied range r = false)
    (hy : ∀ jv ∈ intervals f, st.map.lookup jv.vreg = some r → jv.range.overlaps range = true →
      f.isTemp jv.vreg = false → jv.vreg ∈ st.spilled) :
    Blocked f st range r := by
  rw [isFree, Bool.not_eq_false', List.any_eq_true] at hf
  obtain ⟨seg, hm, ho⟩ := hf
  rcases hl.held r seg hm with hseg | ⟨jv, hj, hr, rfl⟩
  · exact .fixed seg hseg ho
  · cases ht : f.isTemp jv.vreg with
    | true => exact .temporary jv hj hr ht ho
    | false =>
      rw [Segment.overlaps_comm] at ho
      refine .evicted jv hj hr ⟨by rw [hr]; rfl, hy jv hj hr ho ht⟩ ?_
      rw [Segment.overlaps_comm, ho]

end Scan

/-- Where a class is exhausted, a temporary of the class finds every register of it in use by the
function itself, by another temporary, or by an ordinary value that has been spilled. Each such
value made way for a temporary of its own, which it meets and which got no register. -/
theorem linearScan_exhausted {f : Routine} {reserved : Reserved} {cls : RegClass} {name : String}
    (h : linearScan f reserved = fail (.registerClassExhausted cls name)) :
    name = f.name ∧ ∃ past iv rest st, intervals f = past ++ iv :: rest ∧ Reaches f reserved past st ∧
      f.classOf? iv.vreg = some cls ∧ f.isTemp iv.vreg = true ∧
      (∀ r ∈ reserved.allocatable cls, Blocked f st iv.range r) ∧ ∃ cause, Evictions f past st cause := by
  simp only [linearScan] at h
  split at h
  · cases h
  · cases hfold : (intervals f).foldlM (settingOf f reserved).step { occupied := occupiedBy f } with
    | ok st =>
      rw [settingOf] at hfold
      rw [hfold] at h
      cases h
    | error e =>
      obtain ⟨past, iv, rest, st, hi, hreach, hstep⟩ := foldlM_eq_error hfold
      rw [settingOf] at hfold
      rw [hfold] at h
      cases h
      obtain ⟨hcls, hname, hfree, hvictim⟩ := Setting.step_exhausted hstep
      obtain ⟨htemp, hyield⟩ := victim?_eq_none hvictim
      have hl : Ledger f past st := Reaches.ledger hreach hi
      refine ⟨hname, past, iv, rest, st, hi, hreach, hcls, htemp, fun r hr => ?_, hl.evictions⟩
      have hcand : r ∈ (settingOf f reserved).candidates _ iv.range := mem_candidates_of_allocatable hr
      refine blocked_of_not_free hl (hfree r hcand) fun jv hj hlook ho ht => ?_
      have hkeeps := hyield jv hj
      rw [← Bool.not_eq_true, canYield_iff] at hkeeps
      by_contra hns
      exact hkeeps ⟨r, hcand, hlook, ht, hns, ho⟩

def crowded : Routine where
  name := "crowded"
  blocks := [(List.range 33).map (fun v => .loadImm (.virt v) 0#32) ++
    (List.range 16).map (fun v => .store (.virt v) .word .sp 0#32) ++ [.ret []]]
  classes := List.replicate 33 .gprLow
  temps := (List.range 17).map (· + 16)

private def crowdedIntervals : List Interval :=
  (List.range 16).map (fun v => ⟨v, ⟨2 * v + 1, 2 * v + 66⟩⟩) ++
    (List.range 17).map fun v => ⟨v + 16, ⟨2 * v + 33, 2 * v + 33⟩⟩

private theorem intervals_crowded : intervals crowded = crowdedIntervals :=
  intervals_eq (by decide +kernel) (by decide +kernel)

private theorem linearScan_crowded :
    linearScan crowded .base = fail (.registerClassExhausted .gprLow "crowded") := by
  have hview : viewScan crowded .base crowdedIntervals = fail (.registerClassExhausted .gprLow "crowded") := by
    decide +kernel
  rw [linearScan_eq .base (by decide +kernel) intervals_crowded, hview]
  rfl

theorem linearScan_exhausted_crowded :
    linearScan crowded .base = fail (.registerClassExhausted .gprLow "crowded") ∧
    ∃ past iv rest st, intervals crowded = past ++ iv :: rest ∧ Reaches crowded .base past st ∧
      crowded.classOf? iv.vreg = some .gprLow ∧ crowded.isTemp iv.vreg = true ∧
      (∀ r ∈ Reserved.base.allocatable .gprLow, Blocked crowded st iv.range r) ∧
      ∃ cause, Evictions crowded past st cause :=
  ⟨linearScan_crowded, (linearScan_exhausted linearScan_crowded).2⟩

/-- The class is exhausted although no two temporaries are in use at the same time and the
function itself uses none of the registers. -/
theorem crowded_temporaries_apart :
    linearScan crowded .base = fail (.registerClassExhausted .gprLow "crowded") ∧
    (∀ r ∈ Reserved.base.allocatable .gprLow, segments crowded r = []) ∧
    ∀ iv ∈ intervals crowded, ∀ jv ∈ intervals crowded, crowded.isTemp iv.vreg = true →
      crowded.isTemp jv.vreg = true → iv ≠ jv → iv.range.overlaps jv.range = false := by
  refine ⟨linearScan_crowded, by decide +kernel, ?_⟩
  rw [intervals_crowded]
  decide +kernel

end DirectPage.Allocation
