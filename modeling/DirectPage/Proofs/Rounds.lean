import DirectPage.Allocation
import DirectPage.Proofs.SpillSemantics

/-! Allocation in rounds keeps what a function of one block of word operations computes. -/
namespace DirectPage.Allocation

section Slots

variable {n bound : Nat} {slots : List SpillSlot} {s : SpillSlot}

private theorem apart_insertSlot (h : Apart n bound slots) (hv : s.vreg < n) (hb : bound ≤ s.index)
    (hc : s.cls = .gpr) (hne : ∀ t ∈ slots, s.index ≠ t.index) : Apart n bound (insertSlot s slots) := by
  refine ⟨pairwise_insertSlot h.sorted fun t ht => ⟨hne t ht, (hne t ht).symm⟩, fun t ht => ?_⟩
  rcases mem_insertSlot ht with rfl | ht
  · exact ⟨hv, hb, hc⟩
  · exact h.slot t ht

end Slots

structure Widened (p q : FramePlan) : Prop where
  objects : ∃ k, q.objects = p.objects ++ List.replicate k (FrameObject.local wordSize wordSize)
  rest : q = { p with objects := q.objects }

theorem Widened.refl (p : FramePlan) : Widened p p := ⟨⟨0, by simp⟩, rfl⟩

theorem Widened.trans {p q r : FramePlan} (h : Widened p q) (h' : Widened q r) : Widened p r := by
  obtain ⟨⟨k, hk⟩, hr⟩ := h
  obtain ⟨⟨l, hl⟩, hr'⟩ := h'
  refine ⟨⟨k + l, by rw [hl, hk, List.append_assoc, List.replicate_append_replicate]⟩, ?_⟩
  rw [hr', hr]

private theorem widened_addLocal (p : FramePlan) : Widened p (p.addLocal wordSize wordSize).2 :=
  ⟨⟨1, rfl⟩, rfl⟩

variable {f : Routine} {plan plan' : FramePlan} {ms : List Pseudo} {rs : List Register} {reserved : Reserved}
  {vs : List Nat} {r : Register}

/-- Spilling gives every register an object of its own behind those that were there. -/
private theorem addSlots_spec (hgpr : ∀ cls ∈ f.classes, cls = .gpr) {bound : Nat} {slots slots' : List SpillSlot}
    (h : addSlots f vs slots plan = (.ok slots', plan')) (ha : Apart f.numVRegs bound slots)
    (hb : bound ≤ plan.objects.length) (hs : ∀ s ∈ slots, plan.objects[s.index]? = some (.local wordSize wordSize)) :
    Widened plan plan' ∧ Apart f.numVRegs bound slots' ∧
      ∀ s ∈ slots', plan'.objects[s.index]? = some (.local wordSize wordSize) := by
  induction vs generalizing slots plan with
  | nil =>
    cases h
    exact ⟨.refl _, ha, hs⟩
  | cons v rest ih =>
    rw [addSlots] at h
    split at h
    · cases h
    · next cls hcls =>
      split at h
      · cases h
      · obtain ⟨hlt, hget⟩ := List.getElem?_eq_some_iff.mp hcls
        obtain rfl : cls = .gpr := hgpr cls (hget ▸ List.getElem_mem hlt)
        have hlen {s : SpillSlot} (hs' : s ∈ slots) : s.index < plan.objects.length :=
          (List.getElem?_eq_some_iff.mp (hs s hs')).1
        obtain ⟨hw, hrest⟩ := ih h
          (apart_insertSlot (s := ⟨v, plan.objects.length, .gpr⟩) ha hlt hb rfl fun t ht =>
            (Nat.ne_of_lt (hlen ht)).symm)
          (by rw [List.length_append]; omega)
          fun t ht => by
            rcases mem_insertSlot ht with rfl | ht
            · simp [wordSize, spillSize]
            · rw [List.getElem?_append_left (hlen ht), hs t ht]
        exact ⟨(widened_addLocal plan).trans hw, hrest⟩

/-- Spill code leaves the same words in hardware registers. -/
theorem insertSpillCode_spec {g : Routine} (hf : f.Plain plan.objects ms rs)
    (h : insertSpillCode f plan vs = (.ok g, plan')) :
    Widened plan plan' ∧ g.name = f.name ∧ ∃ ms', g.Plain plan'.objects ms' rs ∧
      ∀ st' : Store, ∃ st : Store, (∀ r, st.regs (.phys r) = st'.regs (.phys r)) ∧
        (∀ i < plan.objects.length, st.objects i = st'.objects i) ∧
        Option.Rel (fun s s' => ∀ r, s.regs (.phys r) = s'.regs (.phys r)) (Pseudo.evalAll st ms)
          (Pseudo.evalAll st' ms') := by
  rw [insertSpillCode_eq] at h
  generalize hadd : addSlots f vs [] plan = added at h
  obtain ⟨slots?, plan1⟩ := added
  obtain ⟨hmap, rfl⟩ := Prod.mk.inj h
  cases slots? with
  | error e => cases hmap
  | ok slots =>
    have hnil : Apart f.numVRegs plan.objects.length [] := ⟨.nil, by simp⟩
    obtain ⟨hw, ha, hs⟩ := addSlots_spec hf.gpr hadd hnil (Nat.le_refl _) (by simp)
    obtain ⟨k, hk⟩ := hw.objects
    rw [hk] at hs
    obtain ⟨ms', g', hblock, hgrown, hfits, heval⟩ :=
      patchBlock_spec ha hs (Nat.le_refl _) hf.fits rs
    obtain rfl : { g' with blocks := [ms' ++ [.ret rs]] } = g := by
      simp only [hf.blocks, Except.map, patchBlocks, hblock] at hmap
      exact Except.ok.inj hmap
    refine ⟨hw, hgrown.name, ms', ⟨rfl, hgrown.gpr hf.gpr, hgrown.pool.trans hf.pool, ?_⟩, fun st' => ?_⟩
    · rw [hk]
      exact hfits
    · have hphys {st st' : Store} (h : Spread f.numVRegs plan.objects.length slots st st') (r : Register) :
          st.regs (.phys r) = st'.regs (.phys r) := h.kept (.phys r) trivial (by simp)
      have hspread := spread_unspill ha st'
      exact ⟨unspill slots st', hphys hspread, hspread.objects,
        rel_mono (heval _ _ hspread) fun _ _ h => hphys h⟩

/-- So do all rounds together. -/
theorem rounds_spec {left attempts : Nat} {al : Allocated} (hf : f.Plain plan.objects ms rs)
    (h : (rounds scanning reserved left attempts f plan).result = .ok al) :
    Widened plan al.plan ∧ al.routine.name = f.name ∧ linearScan al.routine reserved = .ok al.assignment ∧
      al.assignment.spilled = [] ∧ ∃ ms', al.routine.Plain al.plan.objects ms' rs ∧
        ∀ st' : Store, ∃ st : Store, (∀ r, st.regs (.phys r) = st'.regs (.phys r)) ∧
          (∀ i < plan.objects.length, st.objects i = st'.objects i) ∧
          Option.Rel (fun s s' => ∀ r, s.regs (.phys r) = s'.regs (.phys r)) (Pseudo.evalAll st ms)
            (Pseudo.evalAll st' ms') := by
  induction left generalizing attempts f plan ms with
  | zero => cases h
  | succ left ih =>
    rw [rounds] at h
    split at h
    · cases h
    · next a ha =>
      split at h
      · next hspilled =>
        cases h
        have hrel {x : Option Store} :
            Option.Rel (fun s s' : Store => ∀ r, s.regs (.phys r) = s'.regs (.phys r)) x x := by
          cases x with
          | none => exact .none
          | some s => exact .some fun _ => rfl
        exact ⟨.refl _, rfl, ha, by simpa using hspilled, ms, hf,
          fun st => ⟨st, fun _ => rfl, fun _ _ => rfl, hrel⟩⟩
      · split at h
        · cases h
        · next g plan1 hspill =>
          obtain ⟨hw, hname, ms1, hg, hone⟩ := insertSpillCode_spec hf hspill
          obtain ⟨hw', hname', hscan, hs, ms', hp, hall⟩ := ih hg h
          refine ⟨hw.trans hw', hname'.trans hname, hscan, hs, ms', hp, fun st'' => ?_⟩
          obtain ⟨st', hphys', hobj', hrel'⟩ := hall st''
          obtain ⟨st, hphys, hobj, hrel⟩ := hone st'
          obtain ⟨k, hk⟩ := hw.objects
          refine ⟨st, fun r => (hphys r).trans (hphys' r), fun i hi => (hobj i hi).trans (hobj' i ?_),
            rel_trans hrel hrel' fun _ _ _ h h' r => (h r).trans (h' r)⟩
          rw [hk, List.length_append]
          omega

def Usable (r : Register) : Prop := ∃ n : UInt8, r = .general n ∧ n < 64 ∧ n ≠ 31

theorem usable_of_mem_intArgRegs (h : r ∈ intArgRegs) : Usable r := by
  simp only [intArgRegs, List.map_cons, List.map_nil, List.mem_cons, List.not_mem_nil, or_false] at h
  rcases h with rfl | rfl | rfl | rfl | rfl | rfl | rfl | rfl <;> exact ⟨_, rfl, by decide, by decide⟩

private theorem usable_of_inClass (h : r.inClass .gpr = true) (hr : reserved.contains r = false) : Usable r := by
  cases r with
  | general n =>
    refine ⟨n, rfl, by simpa [Register.inClass] using h, ?_⟩
    rintro rfl
    simp [Reserved.contains] at hr
  | _ => cases h

structure Placed (objects : List FrameObject) (m : Pseudo) : Prop where
  word : m.isWordOp = true
  usable : ∀ r ∈ m.regs, ∃ q, r = .phys q ∧ Usable q
  source : ∀ i, m.source? = some i → ∃ o, objects[i]? = some o ∧ o.isWord = true
  object : ∀ i, m.object? = some i → ∃ align, objects[i]? = some (.local wordSize align)

/-- A linear scan without spilling leaves operations over usable registers. -/
theorem placed_assign {a : Assignment} {objects : List FrameObject} (hf : f.Plain objects ms rs)
    (h : linearScan f reserved = .ok a) (hs : a.spilled = []) {m : Pseudo} (hm : m ∈ ms) :
    Placed objects (m.mapRegs a.regMap.apply) := by
  have hfit := hf.fits m hm
  refine ⟨by rw [Pseudo.isWordOp_mapRegs, hfit.word], fun r hr => ?_,
    fun i hi => hfit.source i (by rwa [Pseudo.source?_mapRegs] at hi),
    fun i hi => hfit.object i (by rwa [Pseudo.object?_mapRegs] at hi)⟩
  rw [Pseudo.regs_mapRegs, List.mem_map] at hr
  obtain ⟨u, hu, rfl⟩ := hr
  cases u with
  | phys q => exact ⟨q, rfl, usable_of_mem_intArgRegs (hfit.args q hu)⟩
  | virt v =>
    obtain ⟨k, hk⟩ := List.mem_iff_getElem?.mp hm
    have hlt := (List.getElem?_eq_some_iff.mp hk).1
    have hop : opAt? f 0 k = some m := by
      simp [opAt?, hf.blocks, List.getElem?_append_left hlt, hk]
    obtain ⟨q, cls, hq, hcls, hin, hres⟩ := linearScan_assigns h hs ⟨0, k, m, hop, hu⟩
    obtain ⟨hlt', hget⟩ := List.getElem?_eq_some_iff.mp hcls
    obtain rfl : cls = .gpr := hf.gpr cls (hget ▸ List.getElem_mem hlt')
    exact ⟨q, RegMap.apply_virt hq, usable_of_inClass hin hres⟩

end DirectPage.Allocation
