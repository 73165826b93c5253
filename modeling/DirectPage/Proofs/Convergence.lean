import DirectPage.Allocation
import DirectPage.Proofs.Exhaustion
import DirectPage.Proofs.Folding
import DirectPage.Proofs.SpillFlow
import Mathlib.Data.List.Induction
import Mathlib.Data.List.Perm.Subperm

/-! Allocation in rounds comes to an end.

An attempt fails only where a class is exhausted, and what it names to spill are ordinary values that
occur, each once. Spill code replaces these by temporaries, so with every round fewer ordinary values
occur, and there were no more of them than virtual registers to start with. -/
namespace DirectPage

structure Routine.Proper (f : Routine) : Prop where
  targets : f.TargetsInRange
  classes : ∀ block ∈ f.blocks, ∀ m ∈ block, ∀ v, .virt v ∈ m.regs → (f.classOf? v).isSome = true

theorem Routine.Proper.targetsExist {f : Routine} (hf : f.Proper) : Allocation.targetsExist f = true := by
  have hadd (ts acc : List Nat) (b : Nat)
      (h : b ∈ ts.foldl (fun acc t => if acc.contains t then acc else acc ++ [t]) acc) : b ∈ acc ∨ b ∈ ts := by
    induction ts generalizing acc with
    | nil => exact .inl h
    | cons t ts ih =>
      rw [List.foldl_cons] at h
      rcases ih _ h with hacc | hts
      · split at hacc
        · exact .inl hacc
        · rcases List.mem_append.mp hacc with hacc | ht
          · exact .inl hacc
          · exact .inr (by simp [List.mem_singleton.mp ht])
      · exact .inr (List.mem_cons_of_mem _ hts)
  rw [Allocation.targetsExist, List.all_eq_true]
  intro b hb
  rw [List.all_eq_true]
  intro c hc
  rw [decide_eq_true_eq]
  rw [Routine.successors] at hc
  cases hblock : f.blocks[b]? with
  | none =>
    rw [hblock] at hc
    cases hc
  | some block =>
    have htargets := hf.targets block (List.mem_of_getElem? hblock)
    rw [hblock] at hc
    dsimp only at hc
    split at hc
    · next hfall =>
      rcases List.mem_append.mp hc with hc | hc
      · exact htargets c ((hadd _ _ _ hc).resolve_left (by simp))
      · rw [List.mem_singleton.mp hc]
        simp only [Bool.and_eq_true, decide_eq_true_eq] at hfall
        exact hfall.1.2
    · exact htargets c ((hadd _ _ _ hc).resolve_left (by simp))

namespace Allocation

section Occurrence

variable {f : Routine} {v : Nat}

theorem occurs_iff : Occurs f v ↔ ∃ block ∈ f.blocks, ∃ m ∈ block, .virt v ∈ m.regs := by
  constructor
  · rintro ⟨b, k, m, hm, hv⟩
    obtain ⟨block, hb, hk⟩ := opAt?_some hm
    exact ⟨block, List.mem_of_getElem? hb, m, List.mem_of_getElem? hk, hv⟩
  · rintro ⟨block, hblock, m, hm, hv⟩
    obtain ⟨b, hb⟩ := List.mem_iff_getElem?.mp hblock
    obtain ⟨k, hk⟩ := List.mem_iff_getElem?.mp hm
    exact ⟨b, k, m, by rw [opAt?, hb, Option.bind_some, hk], hv⟩

private theorem touched_of_mem {ms : List Pseudo} {i : Nat} {t : Touch} (h : t ∈ touchesFrom i ms) :
    ∃ m ∈ ms, t.1 ∈ m.uses ∨ t.1 ∈ m.defs := by
  induction ms generalizing i with
  | nil => cases h
  | cons m ms ih =>
    rw [touchesFrom, List.mem_append, List.mem_append] at h
    rcases h with (h | h) | h
    · obtain ⟨r, hr, rfl⟩ := List.mem_map.mp h
      exact ⟨m, List.mem_cons_self, .inl hr⟩
    · obtain ⟨r, hr, rfl⟩ := List.mem_map.mp h
      exact ⟨m, List.mem_cons_self, .inr hr⟩
    · obtain ⟨m', hm, hr⟩ := ih h
      exact ⟨m', List.mem_cons_of_mem _ hm, hr⟩

/-- The intervals are those of the virtual registers that occur. -/
theorem mem_vregs_intervals : v ∈ (intervals f).map Interval.vreg ↔ Occurs f v := by
  constructor
  · intro h
    obtain ⟨iv, hiv, rfl⟩ := List.mem_map.mp h
    obtain ⟨w, hw, hiv'⟩ := List.mem_filterMap.mp (List.mem_mergeSort.mp hiv)
    obtain ⟨⟨r, p⟩, ht, hr⟩ := List.mem_filterMap.mp (List.mem_eraseDups.mp hw)
    obtain rfl : r = .virt iv.vreg := by
      rw [interval?_vreg hiv']
      cases r with
      | virt u => exact congrArg Reg.virt (Option.some.inj hr)
      | phys q => cases hr
    obtain ⟨m, hm, hreg⟩ := touched_of_mem ht
    obtain ⟨block, hblock, hm⟩ := List.mem_flatten.mp hm
    exact occurs_iff.mpr ⟨block, hblock, m, hm, Pseudo.virt_mem_regs.mpr hreg⟩
  · intro h
    obtain ⟨p, hp⟩ := h.touched
    obtain ⟨iv, hiv⟩ := interval?_isSome hp
    rw [← interval?_vreg hiv]
    exact List.mem_map_of_mem (mem_intervals hp hiv)

end Occurrence

/-! One attempt. -/

section Attempt

variable {f : Routine} {reserved : Reserved} {past rest : List Interval} {st : ScanState} {a : Assignment}

/-- During a scan only ordinary values are named, and none of them twice. -/
theorem Reaches.spilled (h : Reaches f reserved past st) (hp : intervals f = past ++ rest) :
    st.spilled.Nodup ∧ ∀ v ∈ st.spilled, f.isTemp v = false := by
  induction past using List.reverseRecOn generalizing st rest with
  | nil =>
    cases h
    exact ⟨List.nodup_nil, by simp⟩
  | append_singleton past iv ih =>
    rw [Reaches, List.foldlM_append] at h
    obtain ⟨mid, hmid, h⟩ := bind_eq_ok.mp h
    rw [List.foldlM_cons] at h
    obtain ⟨st', hstep, h⟩ := bind_eq_ok.mp h
    cases h
    have hsplit : intervals f = past ++ iv :: rest := by rw [hp, List.append_assoc]; rfl
    obtain ⟨hnodup, hordinary⟩ := ih hmid hsplit
    obtain ⟨cls, -, ⟨r, -, -, -, rfl⟩ | ⟨v, hv, rfl⟩⟩ := Setting.step_cases hstep
    · exact ⟨hnodup, hordinary⟩
    · -- a value that finds no register was not scanned before, and one that yields is not named yet
      have hnew : v ∉ mid.spilled ∧ f.isTemp v = false := by
        rcases victim?_cases hv with ⟨htemp, rfl⟩ | ⟨-, jv, -, rfl, hyield⟩
        · refine ⟨fun hm => ?_, htemp⟩
          have hpast := (Reaches.ledger hmid hsplit).spilled _ hm
          have hall := nodup_intervals f
          rw [hsplit, List.map_append, List.nodup_append] at hall
          exact hall.2.2 _ hpast _ (by simp) rfl
        · obtain ⟨q, -, -, htemp, hfree, -⟩ := canYield_iff.mp hyield
          exact ⟨hfree, htemp⟩
      refine ⟨?_, fun w hw => ?_⟩
      · rw [List.nodup_append]
        refine ⟨hnodup, List.nodup_singleton v, fun w hw u hu he => ?_⟩
        rw [he, List.mem_singleton.mp hu] at hw
        exact hnew.1 hw
      · rcases List.mem_append.mp hw with hw | hw
        · exact hordinary w hw
        · rw [List.mem_singleton.mp hw]
          exact hnew.2

/-- What an attempt names to spill. -/
theorem linearScan_spilled (h : linearScan f reserved = .ok a) :
    a.spilled.Nodup ∧ ∀ v ∈ a.spilled, Occurs f v ∧ f.isTemp v = false := by
  simp only [linearScan] at h
  split at h
  · cases h
  · obtain ⟨st, hfold, h⟩ := bind_eq_ok.mp h
    cases h
    have hreach : Reaches f reserved (intervals f) st := hfold
    have hall : intervals f = intervals f ++ [] := (List.append_nil _).symm
    obtain ⟨hnodup, hordinary⟩ := hreach.spilled hall
    exact ⟨hnodup, fun v hv => ⟨mem_vregs_intervals.mp ((hreach.ledger hall).spilled v hv), hordinary v hv⟩⟩

theorem Setting.step_error {s : Setting} {iv : Interval} {e : Failure} (h : s.step st iv = .error e)
    (hc : (s.routine.classOf? iv.vreg).isSome = true) :
    ∃ cls, e = .error (.registerClassExhausted cls s.routine.name) := by
  obtain ⟨cls, hcls⟩ := Option.isSome_iff_exists.mp hc
  refine ⟨cls, ?_⟩
  simp only [Setting.step, hcls, orFail, ok_bind] at h
  split at h
  · cases h
  · cases hv : s.victim? st (s.candidates cls iv.range) iv with
    | some v =>
      rw [hv] at h
      cases h
    | none =>
      rw [hv] at h
      cases h
      rfl

/-- An attempt gives an assignment, unless a class is exhausted. -/
theorem linearScan_ok_or_exhausted (hf : f.Proper) (reserved : Reserved) :
    (∃ a, linearScan f reserved = .ok a) ∨
      ∃ cls, linearScan f reserved = fail (.registerClassExhausted cls f.name) := by
  have hscan : linearScan f reserved = (intervals f).foldlM (settingOf f reserved).step { occupied := occupiedBy f } >>=
      fun st => pure ⟨st.map, calleeSavedIn st.map, st.spilled⟩ := by
    rw [linearScan, hf.targetsExist]
    rfl
  rw [hscan]
  cases hfold : (intervals f).foldlM (settingOf f reserved).step { occupied := occupiedBy f } with
  | ok st => exact .inl ⟨_, rfl⟩
  | error e =>
    obtain ⟨past, iv, rest, st, hsplit, -, hstep⟩ := foldlM_eq_error hfold
    have hoccurs : Occurs f iv.vreg := mem_vregs_intervals.mp (List.mem_map_of_mem (by rw [hsplit]; simp))
    obtain ⟨block, hblock, m, hm, hv⟩ := occurs_iff.mp hoccurs
    obtain ⟨cls, rfl⟩ := Setting.step_error hstep (hf.classes block hblock m hm _ hv)
    exact .inr ⟨cls, rfl⟩

end Attempt

/-! Spill code in between. -/

def ordinaries (f : Routine) : List Nat := ((intervals f).map Interval.vreg).filter fun v => !f.isTemp v

theorem mem_ordinaries {f : Routine} {v : Nat} : v ∈ ordinaries f ↔ Occurs f v ∧ f.isTemp v = false := by
  rw [ordinaries, List.mem_filter, mem_vregs_intervals, Bool.not_eq_true']

theorem nodup_ordinaries (f : Routine) : (ordinaries f).Nodup := (nodup_intervals f).filter _

private theorem branchTargets_eq (block : List Pseudo) : branchTargets block = block.filterMap Pseudo.target? := by
  rw [branchTargets]
  congr 1

section Spill

variable {f g : Routine} {slots : List SpillSlot} {rows : List (List Patch)}

/-- An operation of the result is one of spill code, over new registers only, or an operation of the source with
some of its registers replaced by new ones. -/
theorem SpilledInto.op (h : SpilledInto slots rows f g) {block : List Pseudo} (hblock : block ∈ g.blocks) {m : Pseudo}
    (hm : m ∈ block) :
    (m.target? = none ∧ ∀ v, .virt v ∈ m.regs → f.numVRegs ≤ v ∧ v < g.numVRegs) ∨
      ∃ old ∈ f.blocks, ∃ op ∈ old, m.target? = op.target? ∧
        ∀ v, .virt v ∈ m.regs → .virt v ∈ op.regs ∨ f.numVRegs ≤ v ∧ v < g.numVRegs := by
  rw [h.code] at hblock
  obtain ⟨row, hrow, rfl⟩ := List.mem_map.mp hblock
  obtain ⟨p, hp, hm⟩ := List.mem_flatMap.mp hm
  obtain ⟨hfresh, -⟩ := h.laid.mem (List.mem_flatten.mpr ⟨row, hrow, hp⟩)
  have hnew {c : Carrier} (hc : c ∈ p.loads ++ p.saves) {v : Nat} (hv : c.temp ≤ v ∧ v < c.temp + c.width) :
      f.numVRegs ≤ v ∧ v < g.numVRegs := by
    obtain ⟨hle, hlt⟩ := hfresh.within c hc
    exact ⟨Nat.le_trans hle hv.1, Nat.lt_of_lt_of_le hv.2 hlt⟩
  rcases Patch.mem_code hm with ⟨c, hc, hm⟩ | rfl | ⟨c, hc, hm⟩
  · obtain ⟨htarget, hregs⟩ := c.temp_of_mem_regs (.inl hm)
    exact .inl ⟨htarget, fun v hv => hnew (List.mem_append_left _ hc) (hregs v hv)⟩
  · right
    refine ⟨row.map Patch.op, ?_, p.op, List.mem_map_of_mem hp, Pseudo.target?_rename _ _ _, fun v hv => ?_⟩
    · rw [h.source]
      exact List.mem_map_of_mem hrow
    · rw [Pseudo.virt_mem_regs] at hv ⊢
      have hswap (cs : List Carrier) (hcs : ∀ c ∈ cs, c ∈ p.loads ++ p.saves) (rs : List Reg)
          (hv : .virt v ∈ rs.map (Carrier.swap cs)) : .virt v ∈ rs ∨ f.numVRegs ≤ v ∧ v < g.numVRegs := by
        obtain ⟨r, hr, he⟩ := List.mem_map.mp hv
        rcases Carrier.swap_cases cs r with ⟨hsame, -⟩ | ⟨c, hc, -, hc'⟩
        · rw [hsame] at he
          exact .inl (he ▸ hr)
        · have hv := Reg.virt.inj (hc'.symm.trans he)
          have := c.width_pos
          exact .inr (hnew (hcs c hc) (by omega))
      rcases hv with hv | hv
      · rw [Patch.uses_inst] at hv
        exact (hswap _ (fun c hc => List.mem_append_left _ hc) _ hv).imp_left .inl
      · rw [Patch.defs_inst] at hv
        exact (hswap _ (fun c hc => List.mem_append_right _ hc) _ hv).imp_left .inr
  · obtain ⟨htarget, hregs⟩ := c.temp_of_mem_regs (.inr hm)
    exact .inl ⟨htarget, fun v hv => hnew (List.mem_append_right _ hc) (hregs v hv)⟩

/-- Spill code keeps branches to blocks and classes of registers. -/
theorem SpilledInto.proper (h : SpilledInto slots rows f g) (hf : f.Proper) : g.Proper := by
  have hclass {v : Nat} (hhi : v < g.numVRegs) : (g.classOf? v).isSome = true := by
    rw [Routine.classOf?, List.getElem?_eq_getElem hhi]
    rfl
  have hlen : g.blocks.length = f.blocks.length := by rw [h.code, h.source, List.length_map, List.length_map]
  refine ⟨fun block hblock b hb => ?_, fun block hblock m hm v hv => ?_⟩
  · rw [branchTargets_eq] at hb
    obtain ⟨m, hm, htarget⟩ := List.mem_filterMap.mp hb
    rcases h.op hblock hm with ⟨hnone, -⟩ | ⟨old, hold, op, hop, hsame, -⟩
    · rw [hnone] at htarget
      cases htarget
    · rw [hlen]
      refine hf.targets old hold b ?_
      rw [branchTargets_eq]
      exact List.mem_filterMap.mpr ⟨op, hop, hsame ▸ htarget⟩
  · rcases h.op hblock hm with ⟨-, hnew⟩ | ⟨old, hold, op, hop, -, hregs⟩
    · exact hclass (hnew v hv).2
    · rcases hregs v hv with hv | ⟨-, hhi⟩
      · obtain ⟨cls, hcls⟩ := Option.isSome_iff_exists.mp (hf.classes old hold op hop v hv)
        exact hclass (Nat.lt_of_lt_of_le (List.getElem?_eq_some_iff.mp hcls).1 h.grown.numVRegs_le)
      · exact hclass hhi

theorem SpilledInto.occurs (h : SpilledInto slots rows f g) (hs : Distinct f.numVRegs slots) {v : Nat}
    (hv : Occurs g v) : (Occurs f v ∧ ∀ s ∈ slots, s.vreg ≠ v) ∨ g.isTemp v = true := by
  obtain ⟨block, hblock, m, hm, hr⟩ := occurs_iff.mp hv
  have hnew (hlo : f.numVRegs ≤ v) (hhi : v < g.numVRegs) : g.isTemp v = true :=
    List.contains_iff_mem.mpr ((h.grown.temps v).mpr (.inr ⟨hlo, hhi⟩))
  rcases h.op hblock hm with ⟨-, hregs⟩ | ⟨old, hold, op, hop, -, hregs⟩
  · exact .inr (hnew (hregs v hr).1 (hregs v hr).2)
  · rcases hregs v hr with hr | ⟨hlo, hhi⟩
    · refine .inl ⟨occurs_iff.mpr ⟨old, hold, op, hop, hr⟩, ?_⟩
      rintro s hmem rfl
      exact h.gone hs hmem hv
    · exact .inr (hnew hlo hhi)

theorem insertSpillCode_fewer (hf : f.Proper) {vs : List Nat} (hd : vs.Nodup) (hne : vs ≠ [])
    (hvs : ∀ v ∈ vs, Occurs f v ∧ f.isTemp v = false) (plan : FramePlan) :
    ∃ g plan', insertSpillCode f plan vs = (.ok g, plan') ∧ g.Proper ∧ g.name = f.name ∧
      (ordinaries g).length < (ordinaries f).length := by
  have hclass : ∀ v ∈ vs, (f.classOf? v).isSome = true ∧ f.isTemp v = false := by
    intro v hv
    obtain ⟨hoccurs, htemp⟩ := hvs v hv
    obtain ⟨block, hblock, m, hm, hr⟩ := occurs_iff.mp hoccurs
    exact ⟨hf.classes block hblock m hm v hr, htemp⟩
  obtain ⟨slots, hslots, hlisted⟩ :=
    addSlots_listed hd hclass (show ∀ s ∈ ([] : List SpillSlot), s.vreg ∉ vs by simp) plan
  obtain ⟨g, rows, hg, hinto⟩ := insertSpillCode_patches hslots
  have hdistinct : Distinct f.numVRegs slots := addSlots_distinct hslots .nil (by simp)
  refine ⟨g, _, hg, hinto.proper hf, (Routine.mk.inj hinto.grown.rest).1, ?_⟩
  -- every ordinary value of the result is one of the source, and the spilled ones are not among them
  obtain ⟨v, hv⟩ := List.exists_mem_of_ne_nil vs hne
  have hsub : v :: ordinaries g ⊆ ordinaries f := by
    intro w hw
    rcases List.mem_cons.mp hw with rfl | hw
    · exact mem_ordinaries.mpr (hvs w hv)
    · obtain ⟨hoccurs, htemp⟩ := mem_ordinaries.mp hw
      rcases hinto.occurs hdistinct hoccurs with ⟨hold, -⟩ | hnew
      · refine mem_ordinaries.mpr ⟨hold, ?_⟩
        rw [Bool.eq_false_iff] at htemp ⊢
        intro ht
        exact htemp (List.contains_iff_mem.mpr ((hinto.grown.temps w).mpr (.inl (List.contains_iff_mem.mp ht))))
      · rw [hnew] at htemp
        cases htemp
  have hfresh : v ∉ ordinaries g := by
    intro hmem
    obtain ⟨hoccurs, htemp⟩ := mem_ordinaries.mp hmem
    rcases hinto.occurs hdistinct hoccurs with ⟨-, hnot⟩ | hnew
    · obtain ⟨i, hi⟩ := List.mem_iff_getElem?.mp hv
      obtain ⟨cls, hcls⟩ := Option.isSome_iff_exists.mp (hclass v hv).1
      exact hnot ⟨v, plan.objects.length + i, cls⟩ ((hlisted _).mpr (.inr ⟨i, hi, rfl, hcls⟩)) rfl
    · rw [hnew] at htemp
      cases htemp
  have hlen := (List.subperm_of_subset (List.nodup_cons.mpr ⟨hfresh, nodup_ordinaries g⟩) hsub).length_le
  rw [List.length_cons] at hlen
  omega

end Spill

/-! All rounds. -/

/-- An allocation that came to an end: nothing is left to spill, and whatever occurs has a register. -/
structure Allocated.Complete (al : Allocated) (reserved : Reserved) : Prop where
  scanned : linearScan al.routine reserved = .ok al.assignment
  unspilled : al.assignment.spilled = []
  covers : ∀ v, Occurs al.routine v → (al.assignment.regMap v).isSome = true

theorem rounds_converge {f : Routine} (hf : f.Proper) (reserved : Reserved) (attempts : Nat) (plan : FramePlan)
    {left : Nat} (hleft : (ordinaries f).length < left) :
    (rounds scanning reserved left attempts f plan).attempts ≤ attempts + (ordinaries f).length + 1 ∧
      ((∃ al, (rounds scanning reserved left attempts f plan).result = .ok al ∧ al.Complete reserved) ∨
        ∃ cls, (rounds scanning reserved left attempts f plan).result =
          fail (.registerClassExhausted cls f.name)) := by
  induction left generalizing attempts f plan with
  | zero => omega
  | succ left ih =>
    rw [rounds]
    rcases linearScan_ok_or_exhausted hf reserved with ⟨a, ha⟩ | ⟨cls, hcls⟩
    · rw [scanning, ha]
      dsimp only
      split
      · next hspilled =>
        have hnil : a.spilled = [] := List.isEmpty_iff.mp hspilled
        refine ⟨by dsimp only; omega, .inl ⟨_, rfl, ha, hnil, fun v hv => ?_⟩⟩
        obtain ⟨q, -, hq, -⟩ := linearScan_assigns ha hnil hv
        exact Option.isSome_iff_exists.mpr ⟨q, hq⟩
      · next hspilled =>
        obtain ⟨hnodup, hvs⟩ := linearScan_spilled ha
        have hne : a.spilled ≠ [] := fun hnil => hspilled (List.isEmpty_iff.mpr hnil)
        obtain ⟨g, plan', hg, hproper, hname, hfewer⟩ := insertSpillCode_fewer hf hnodup hne hvs plan
        rw [hg]
        dsimp only
        obtain ⟨hattempts, hresult⟩ := ih hproper (attempts + 1) plan' (by omega)
        rw [hname] at hresult
        exact ⟨by omega, hresult⟩
    · rw [scanning, hcls]
      exact ⟨by dsimp only [fail]; omega, .inr ⟨cls, rfl⟩⟩

theorem length_ordinaries_le {f : Routine} (hf : f.Proper) : (ordinaries f).length ≤ f.numVRegs := by
  have hsub : ordinaries f ⊆ List.range f.numVRegs := by
    intro v hv
    obtain ⟨block, hblock, m, hm, hr⟩ := occurs_iff.mp (mem_ordinaries.mp hv).1
    obtain ⟨cls, hcls⟩ := Option.isSome_iff_exists.mp (hf.classes block hblock m hm v hr)
    exact List.mem_range.mpr (List.getElem?_eq_some_iff.mp hcls).1
  have hlen := (List.subperm_of_subset (nodup_ordinaries f) hsub).length_le
  rwa [List.length_range] at hlen

/-- Allocation by linear scans ends after at most one attempt more than there are virtual registers: with an
assignment for all that occurs and nothing left to spill, or because a class is exhausted. -/
theorem allocate_converges (f : Routine) (plan : FramePlan) (reserved : Reserved) (hf : f.Proper) :
    (allocate scanning reserved f plan).attempts ≤ f.numVRegs + 1 ∧
      ((∃ al, (allocate scanning reserved f plan).result = .ok al ∧ al.Complete reserved) ∨
        ∃ cls, (allocate scanning reserved f plan).result = fail (.registerClassExhausted cls f.name)) := by
  have hfew := length_ordinaries_le hf
  have hleft : (ordinaries f).length < f.numVRegs + 2 := by omega
  obtain ⟨hattempts, hresult⟩ := rounds_converge hf reserved 0 plan hleft
  rw [allocate]
  exact ⟨by omega, hresult⟩

def pressed : Routine where
  name := "pressed"
  blocks := [(List.range 17).map fun v => .loadImm (.virt v) 0#32,
    (List.range 17).map (fun v => .store (.virt v) .word .sp 0#32) ++ [.jump 1]]
  classes := List.replicate 17 .gprLow

theorem allocate_converges_pressed :
    pressed.Proper ∧ (allocate scanning .base pressed {}).attempts ≤ 18 ∧
      ((∃ al, (allocate scanning .base pressed {}).result = .ok al ∧ al.Complete .base) ∨
        ∃ cls, (allocate scanning .base pressed {}).result = fail (.registerClassExhausted cls "pressed")) := by
  have hclasses : ∀ block ∈ pressed.blocks, ∀ m ∈ block, ∀ r ∈ m.regs, ∀ v ∈ r.virt?,
      (pressed.classOf? v).isSome = true := by decide +kernel
  have hproper : pressed.Proper := by
    refine ⟨by rw [Routine.TargetsInRange]; decide +kernel, fun block hblock m hm v hv => ?_⟩
    exact hclasses block hblock m hm _ hv v rfl
  exact ⟨hproper, allocate_converges pressed {} .base hproper⟩

end Allocation

end DirectPage
