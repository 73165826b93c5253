import DirectPage.Allocation.LinearScan
import DirectPage.Proofs.Checked
import DirectPage.Proofs.Operands
import DirectPage.Proofs.Segment

/-! Two registers of which one is written while the other is live never share an assigned
register. -/
namespace DirectPage.Allocation

theorem Segment.overlaps_comm (s t : Segment) : s.overlaps t = t.overlaps s := by
  simp [Segment.overlaps, Bool.and_comm]

theorem getD_occupy (occupied : Occupied) (range : Segment) (r r' : Register) :
    (occupy occupied range r).getD r' [] =
      if r = r' then range :: occupied.getD r [] else occupied.getD r' [] := by
  simp [occupy, Std.HashMap.getD_insert]

variable {range : Segment} {r : Register} {cls : RegClass} {s : Setting} {st st' : ScanState} {ivs : List Interval}
  {occupied : Occupied} {seg : Segment} {f : Routine} {v : Nat} {iv : Interval}

private theorem getD_occupy_of_mem {r' : Register} (h : seg ∈ occupied.getD r' []) :
    seg ∈ (occupy occupied range r).getD r' [] := by
  rw [getD_occupy]
  split
  · rename_i he
    subst he
    exact List.mem_cons_of_mem _ h
  · exact h

theorem isFree_spec (h : isFree occupied range r = true) (hs : seg ∈ occupied.getD r []) :
    range.overlaps seg = false := by
  simp only [isFree, Bool.not_eq_true', List.any_eq_false] at h
  simpa using h seg hs

/-- Registers that the function itself names are taken over their segments from the start. -/
private theorem getD_occupiedBy (h : r ∈ usedRegisters f) : (occupiedBy f).getD r [] = segments f r := by
  have hgen : ∀ (rs : List Register) (o : Occupied), (r ∈ rs ∨ o.getD r [] = segments f r) →
      (rs.foldl (fun o r => o.insert r (segments f r)) o).getD r [] = segments f r := by
    intro rs
    induction rs with
    | nil => intro o ho; simpa using ho
    | cons s rs ih =>
      intro o ho
      refine ih _ ?_
      by_cases hs : s = r
      · subst hs
        exact .inr (by simp)
      · refine ho.imp (fun hm => ?_) fun he => ?_
        · exact (List.mem_cons.mp hm).resolve_left (Ne.symm hs)
        · simpa [Std.HashMap.getD_insert, hs] using he
  exact hgen _ _ (.inl h)

private theorem inClass_of_mem (h : r ∈ cls.members) : r.inClass cls = true := by
  cases cls <;> revert r h <;> decide

theorem mem_candidates (h : r ∈ s.candidates cls range) : r.inClass cls = true ∧ s.reserved.contains r = false := by
  have ha : r ∈ s.reserved.allocatable cls := by
    simp only [Setting.candidates] at h
    split at h
    · simp only [List.mem_append, List.mem_filter] at h
      exact h.elim (·.1) (·.1)
    · exact h
  have hf : r ∈ cls.members.filter fun r => !s.reserved.contains r := by
    simp only [Reserved.allocatable, List.mem_append, List.mem_filter] at ha ⊢
    exact ha.elim (·.1) (·.1)
  rw [List.mem_filter] at hf
  exact ⟨inClass_of_mem hf.1, by simpa using hf.2⟩

theorem mem_preferred {map : List (Nat × Register)} (h : r ∈ s.preferred map cls v) :
    r.inClass cls = true ∧ s.reserved.contains r = false := by
  simp only [Setting.preferred, List.mem_filter, Bool.and_eq_true, Bool.not_eq_true'] at h
  exact h.2

/-- A step takes a free register of the right class, or names a value to spill. -/
theorem Setting.step_cases (h : s.step st iv = .ok st') : ∃ cls, s.routine.classOf? iv.vreg = some cls ∧
      ((∃ r, r.inClass cls = true ∧ s.reserved.contains r = false ∧
          isFree st.occupied iv.range r = true ∧
          st' = { st with
            map := (iv.vreg, r) :: st.map, occupied := occupy st.occupied iv.range r }) ∨
        ∃ v, s.victim? st (s.candidates cls iv.range) iv = some v ∧
          st' = { st with spilled := st.spilled ++ [v] }) := by
  rw [Setting.step, bind_eq_ok] at h
  obtain ⟨cls, hc, h⟩ := h
  refine ⟨cls, by simpa using hc, ?_⟩
  dsimp only at h
  split at h
  · rename_i r hr
    have hm := List.mem_of_find?_eq_some hr
    have hf := List.find?_some hr
    have hin : r.inClass cls = true ∧ s.reserved.contains r = false :=
      (List.mem_append.mp hm).elim mem_preferred mem_candidates
    cases h
    exact .inl ⟨r, hin.1, hin.2, hf, rfl⟩
  · rw [bind_eq_ok] at h
    obtain ⟨v, hv, h⟩ := h
    cases h
    exact .inr ⟨v, orFail_eq_ok.mp hv, rfl⟩

/-- What holds of the map during a scan: a register in the map is of the right class and not
reserved, is taken over the range of its value, and no other use of it overlaps that range. -/
structure Sound (f : Routine) (reserved : Reserved) (st : ScanState) : Prop where
  kept : ∀ r seg, seg ∈ (occupiedBy f).getD r [] → seg ∈ st.occupied.getD r []
  mapped : ∀ v r, st.map.lookup v = some r → ∃ iv cls,
    interval? f (touches f) v = some iv ∧ f.classOf? v = some cls ∧ r.inClass cls = true ∧
      reserved.contains r = false ∧ iv.range ∈ st.occupied.getD r [] ∧
      ∀ seg ∈ (occupiedBy f).getD r [], iv.range.overlaps seg = false
  apart : ∀ v w r iv jv, v ≠ w → st.map.lookup v = some r → st.map.lookup w = some r →
    interval? f (touches f) v = some iv → interval? f (touches f) w = some jv →
      iv.range.overlaps jv.range = false

theorem Sound.start (f : Routine) (reserved : Reserved) : Sound f reserved { occupied := occupiedBy f } where
  kept _ _ h := h
  mapped v r h := by simp at h
  apart v w r iv jv _ h := by simp at h

theorem lookup_cons (v w : Nat) (r : Register) (map : List (Nat × Register)) :
    ((v, r) :: map).lookup w = if w = v then some r else map.lookup w := by
  by_cases h : w = v
  · rw [h, if_pos rfl, List.lookup_cons_self]
  · rw [if_neg h, List.lookup_cons, beq_false_of_ne h]

/-- A step keeps what holds of the map. -/
theorem Sound.step (hs : Sound s.routine s.reserved st)
    (hiv : interval? s.routine (touches s.routine) iv.vreg = some iv) (h : s.step st iv = .ok st') :
    Sound s.routine s.reserved st' := by
  obtain ⟨cls, hc, ⟨r, hin, hres, hfree, rfl⟩ | ⟨v, -, rfl⟩⟩ := Setting.step_cases h
  · have hnew {w : Nat} {jv : Interval} (hne : w ≠ iv.vreg) (hl : st.map.lookup w = some r)
        (hj : interval? s.routine (touches s.routine) w = some jv) : iv.range.overlaps jv.range = false := by
      obtain ⟨kv, _, hk, _, _, _, hocc, _⟩ := hs.mapped w r hl
      rw [hk] at hj
      cases hj
      exact isFree_spec hfree hocc
    refine ⟨fun q seg hq => getD_occupy_of_mem (hs.kept q seg hq), ?_, ?_⟩
    · intro w q hl
      rw [lookup_cons] at hl
      split at hl
      · rename_i he
        subst he
        cases hl
        refine ⟨iv, cls, hiv, hc, hin, hres, ?_, fun seg hq => isFree_spec hfree (hs.kept r seg hq)⟩
        rw [getD_occupy]
        simp
      · obtain ⟨jv, cls', hj, hc', hin', hres', hocc, hseg⟩ := hs.mapped w q hl
        exact ⟨jv, cls', hj, hc', hin', hres', getD_occupy_of_mem hocc, hseg⟩
    · intro v w q av bv hvw hv hw ha hb
      rw [lookup_cons] at hv hw
      split at hv <;> split at hw
      · rename_i h1 h2
        exact absurd (h1.trans h2.symm) hvw
      · rename_i h1 h2
        subst h1
        cases hv
        rw [hiv] at ha
        cases ha
        exact hnew h2 hw hb
      · rename_i h1 h2
        subst h2
        cases hw
        rw [hiv] at hb
        cases hb
        rw [Segment.overlaps_comm]
        exact hnew h1 hv ha
      · exact hs.apart v w q av bv hvw hv hw ha hb
  · exact ⟨hs.kept, hs.mapped, hs.apart⟩

private theorem sound_foldlM (hs : Sound s.routine s.reserved st)
    (hiv : ∀ iv ∈ ivs, interval? s.routine (touches s.routine) iv.vreg = some iv)
    (h : ivs.foldlM s.step st = .ok st') : Sound s.routine s.reserved st' := by
  induction ivs generalizing st with
  | nil =>
    cases h
    exact hs
  | cons iv ivs ih =>
    rw [List.foldlM_cons, bind_eq_ok] at h
    obtain ⟨mid, hm, h⟩ := h
    exact ih (hs.step (hiv iv List.mem_cons_self) hm) (fun jv hj => hiv jv (List.mem_cons_of_mem _ hj)) h

/-- Where nothing is spilled, every interval has a register. -/
private theorem assigned_foldlM (h : ivs.foldlM s.step st = .ok st') (hn : st'.spilled = []) :
    st.spilled = [] ∧ (∀ v, (st.map.lookup v).isSome = true → (st'.map.lookup v).isSome = true) ∧
      ∀ iv ∈ ivs, (st'.map.lookup iv.vreg).isSome = true := by
  induction ivs generalizing st with
  | nil =>
    cases h
    exact ⟨hn, fun _ h => h, by simp⟩
  | cons iv ivs ih =>
    rw [List.foldlM_cons, bind_eq_ok] at h
    obtain ⟨mid, hm, h⟩ := h
    obtain ⟨hsp, hkeep, hall⟩ := ih h
    obtain ⟨cls, -, ⟨r, -, -, -, rfl⟩ | ⟨v, -, rfl⟩⟩ := Setting.step_cases hm
    · refine ⟨hsp, fun v hv => hkeep v ?_, ?_⟩
      · rw [lookup_cons]
        split <;> simp [hv]
      · intro jv hj
        rcases List.mem_cons.mp hj with rfl | hj
        · exact hkeep _ (by simp)
        · exact hall jv hj
    · simp at hsp

def Occurs (f : Routine) (v : Nat) : Prop := ∃ b k m, opAt? f b k = some m ∧ .virt v ∈ m.regs

theorem Occurs.touched (h : Occurs f v) : ∃ p, (Reg.virt v, p) ∈ touches f := by
  obtain ⟨b, k, m, hm, hv⟩ := h
  rcases Pseudo.virt_mem_regs.mp hv with hu | hd
  · exact ⟨_, read_mem_touches hm hu⟩
  · exact ⟨_, write_mem_touches hm hd⟩

section Result

variable {f : Routine} {reserved : Reserved} {a : Assignment} {v : Nat}

variable (h : linearScan f reserved = .ok a) (hs : a.spilled = [])

include h hs

private theorem linearScan_sound :
    ∃ st, Sound f reserved st ∧ a.map = st.map ∧
      ∀ iv ∈ intervals f, (st.map.lookup iv.vreg).isSome = true := by
  simp only [linearScan] at h
  split at h
  · cases h
  · rw [bind_eq_ok] at h
    obtain ⟨st, hf, h⟩ := h
    cases h
    refine ⟨st, ?_, rfl, ?_⟩
    · exact sound_foldlM (s := ⟨f, reserved, intervals f, callPoints f, copies f⟩) (Sound.start f reserved)
        (fun iv hiv => interval?_of_mem hiv) hf
    · exact (assigned_foldlM hf hs).2.2

theorem linearScan_mapped {r : Register} (hr : a.regMap v = some r) :
    ∃ cls, f.classOf? v = some cls ∧ r.inClass cls = true ∧ reserved.contains r = false := by
  obtain ⟨st, hsound, hmap, -⟩ := linearScan_sound h hs
  rw [Assignment.regMap, hmap] at hr
  obtain ⟨_, cls, _, hc, hin, hres, _⟩ := hsound.mapped v r hr
  exact ⟨cls, hc, hin, hres⟩

/-- Every virtual register that occurs is given a register of its class outside the reserved
set. -/
theorem linearScan_assigns (hv : Occurs f v) :
    ∃ r cls, a.regMap v = some r ∧ f.classOf? v = some cls ∧
      r.inClass cls = true ∧ reserved.contains r = false := by
  obtain ⟨st, -, hmap, hall⟩ := linearScan_sound h hs
  obtain ⟨p, hp⟩ := hv.touched
  obtain ⟨iv, hiv⟩ := interval?_isSome hp
  have hsome := hall iv (mem_intervals hp hiv)
  rw [interval?_vreg hiv] at hsome
  obtain ⟨r, hr⟩ := Option.isSome_iff_exists.mp hsome
  have hr : a.regMap v = some r := by rw [Assignment.regMap, hmap, hr]
  obtain ⟨cls, hc, hin, hres⟩ := linearScan_mapped h hs hr
  exact ⟨r, cls, hr, hc, hin, hres⟩

/-- Registers that the function writes while others are live are not mixed up: a register that
is live behind an operation is not assigned the place of one that the operation writes. -/
theorem linearScan_separates {b k : Nat} {m : Pseudo} {d u : Reg} (hm : opAt? f b k = some m) (hd : d ∈ m.defs)
    (hl : LiveAt f b (k + 1) u) (hne : u ≠ d) : a.regMap.apply u ≠ a.regMap.apply d := by
  obtain ⟨st, hsound, hmap, -⟩ := linearScan_sound h hs
  have hlook (v : Nat) : a.regMap v = st.map.lookup v := by rw [Assignment.regMap, hmap]
  have hfixed {v : Nat} {r : Register} (hv : a.regMap v = some r) {p : Nat}
      (hr : (Reg.phys r, p) ∈ touches f)
      (hseg : ∃ seg ∈ segments f r, seg.Has (writePosition f b k)) {iv : Interval}
      (hiv : interval? f (touches f) v = some iv) : ¬ iv.range.Has (writePosition f b k) := by
    intro hhas
    rw [hlook] at hv
    obtain ⟨jv, _, hj, _, _, _, _, hfree⟩ := hsound.mapped v r hv
    rw [hiv] at hj
    cases hj
    obtain ⟨seg, hs, hh⟩ := hseg
    have := hfree seg (by rwa [getD_occupiedBy (mem_usedRegisters hr)])
    rw [Segment.overlaps_of_has hhas hh] at this
    cases this
  intro he
  cases d with
  | phys r =>
    rw [RegMap.apply_phys] at he
    cases u with
    | phys q => exact hne he
    | virt v =>
      cases hv : a.regMap v with
      | none => simp [RegMap.apply, hv] at he
      | some q =>
        rw [RegMap.apply_virt hv] at he
        cases he
        obtain ⟨iv, _, hiv, _⟩ := hsound.mapped v r (by rw [← hlook, hv])
        exact hfixed hv (write_mem_touches hm hd) (segments_has hm (.inl hd)) hiv (interval?_has_live hm hl hiv)
  | virt w =>
    obtain ⟨r, _, hw, -⟩ := linearScan_assigns h hs (v := w)
      ⟨b, k, m, hm, Pseudo.virt_mem_regs.mpr (.inr hd)⟩
    obtain ⟨jv, _, hjv, _⟩ := hsound.mapped w r (by rw [← hlook, hw])
    have hjhas := interval?_has_write hm hd hjv
    rw [RegMap.apply_virt hw] at he
    cases u with
    | phys q =>
      rw [RegMap.apply_phys] at he
      cases he
      obtain ⟨p, hp⟩ := hl.touched
      exact hfixed hw hp (segments_has hm (.inr hl)) hjv hjhas
    | virt v =>
      cases hv : a.regMap v with
      | none => simp [RegMap.apply, hv] at he
      | some q =>
        rw [RegMap.apply_virt hv] at he
        cases he
        obtain ⟨iv, _, hiv, _⟩ := hsound.mapped v r (by rw [← hlook, hv])
        have hvw : v ≠ w := fun h => hne (by rw [h])
        have := hsound.apart v w r iv jv hvw (by rw [← hlook, hv]) (by rw [← hlook, hw]) hiv hjv
        rw [Segment.overlaps_of_has (interval?_has_live hm hl hiv) hjhas] at this
        cases this

end Result

end DirectPage.Allocation
