import DirectPage.Proofs.Convergence
import DirectPage.Proofs.KeptBlocks
import DirectPage.Proofs.Pipeline

/-! References behind selection.

Spill code makes what it refers to: temporaries of the class that they stand in for, and frame objects. Once registers
are assigned no virtual one is left, addresses of float accesses are in one of the first sixteen registers, and a
result is in a register that passes arguments or was given to a virtual one. -/
namespace DirectPage

namespace Pseudo

section Rename

variable {σ δ : Reg → Reg} {m : Pseudo}

theorem dst?_rename (σ δ : Reg → Reg) (m : Pseudo) : (m.rename σ δ).dst? = m.dst?.map δ := by
  cases m with
  | call target args clobbers => cases target <;> rfl
  | _ => rfl

theorem floatBase?_rename (σ δ : Reg → Reg) (m : Pseudo) : (m.rename σ δ).floatBase? = m.floatBase?.map σ := by
  cases m with
  | fload dst prec base => cases base <;> rfl
  | fstore src prec base => cases base <;> rfl
  | call target args clobbers => cases target <;> rfl
  | _ => rfl

theorem mem_regs_rename {r : Reg} (h : r ∈ (m.rename σ δ).regs) :
    (∃ u ∈ m.regs, r = σ u) ∨ ∃ d, m.dst? = some d ∧ r = δ d := by
  have hmap (h : r ∈ (m.mapRegs σ).regs) : ∃ u ∈ m.regs, r = σ u := by
    rw [regs_mapRegs] at h
    obtain ⟨u, hu, rfl⟩ := List.mem_map.mp h
    exact ⟨u, hu, rfl⟩
  rw [rename] at h
  split at h
  · next d hd =>
    rcases mem_regs_withDst h with rfl | h
    · exact .inr ⟨d, hd, rfl⟩
    · exact .inl (hmap h)
  · exact .inl (hmap h)

theorem rename_eq_loadAddr {dst : Reg} {target : AddrTarget} (h : m.rename σ δ = .loadAddr dst target) :
    ∃ d, m = .loadAddr d target := by
  cases m with
  | loadAddr d t =>
    cases h
    exact ⟨d, rfl⟩
  | call t args clobbers => cases t <;> cases h
  | _ => cases h

theorem withDst_eq_rename (d : Reg) (m : Pseudo) : m.withDst d = m.rename id fun _ => d := by
  cases hd : m.dst? with
  | none =>
    have hsame : m.rename id (fun _ => d) = m.rename id id := rename_congr fun e he => by rw [hd] at he; cases he
    rw [hsame, rename_id]
    cases m <;> first | rfl | cases hd
  | some e => rw [← withDst_rename hd (σ := id) (δ := id), rename_id]

end Rename

section Scope

variable {S T : Scope} {m : Pseudo}

/-- Other registers in an operation, and a scope that has more. -/
theorem InScope.rename {σ δ : Reg → Reg} (h : m.InScope S False) (hw : S.Within T) (hσ : ∀ r ∈ m.regs, T.Knows (σ r))
    (hδ : ∀ d, m.dst? = some d → T.Knows (δ d) ∧ ∀ q, δ d = .phys q → q ∈ argumentRegs)
    (hbase : ∀ r, m.floatBase? = some r → T.class? (σ r) = some .gprLow) : (m.rename σ δ).InScope T False where
  known r hr := by
    rcases mem_regs_rename hr with ⟨u, hu, rfl⟩ | ⟨d, hd, rfl⟩
    · exact hσ u hu
    · exact (hδ d hd).1
  result q hq := by
    rw [dst?_rename, Option.map_eq_some_iff] at hq
    obtain ⟨d, hd, hq⟩ := hq
    exact (hδ d hd).2 q hq
  frame i hi := by
    rw [frameRef?_rename] at hi
    exact Nat.lt_of_lt_of_le (h.frame i hi) hw.objects
  address dst target hm := by
    obtain ⟨d, rfl⟩ := rename_eq_loadAddr hm
    exact hw.names (h.address d target rfl)
  base r hr := by
    rw [floatBase?_rename, Option.map_eq_some_iff] at hr
    obtain ⟨u, hu, rfl⟩ := hr
    exact hbase u hu
  banked := False.elim

theorem InScope.mono (h : m.InScope S False) (hw : S.Within T) : m.InScope T False := by
  rw [← rename_id m]
  exact h.rename hw (fun r hr => hw.knows (h.known r hr))
    (fun d hd => ⟨hw.knows (h.known d (mem_regs_of_dst? hd)), fun q hq => h.result q (by rw [hd, ← hq]; rfl)⟩)
    fun r hr => hw.class? (h.base r hr)

structure Rooted (S : Scope) (m : Pseudo) : Prop where
  frameOp : m.isFrameOp = false
  scope : m.InScope S False

theorem Rooted.mono (h : m.Rooted S) (hw : S.Within T) : m.Rooted T := ⟨h.frameOp, h.scope.mono hw⟩

end Scope

end Pseudo

def Routine.Rooted (f : Routine) (plan : FramePlan) : Prop := ∀ block ∈ f.blocks, ∀ m ∈ block, m.Rooted (f.scope plan)

namespace Allocation

section Spill

variable {plan : FramePlan} {f : Routine} {s : SpillSlot} {slots : List SpillSlot} {sp : Spilled} {plan' : FramePlan}
  {vs : List Nat}

def SlotIn (S : Scope) (s : SpillSlot) : Prop := S.class? (.virt s.vreg) = some s.cls ∧ s.index < S.objects

theorem SlotIn.mono {S T : Scope} (h : SlotIn S s) (hw : S.Within T) : SlotIn T s :=
  ⟨hw.class? h.1, Nat.lt_of_lt_of_le h.2 hw.objects⟩

section

variable (plan : FramePlan) (f : Routine) (cls : RegClass)

theorem within_newTemp : (f.scope plan).Within ((f.newTemp cls).2.scope plan) :=
  ⟨List.prefix_append _ _, Nat.le_refl _, Nat.le_refl _, rfl⟩

theorem class?_newTemp : ((f.newTemp cls).2.scope plan).class? (f.newTemp cls).1 = some cls :=
  List.getElem?_concat_length

private theorem meets_newTemp (bank : StorageClass) :
    ((f.newTemp cls).2.scope plan).Meets False bank (f.newTemp cls).1 :=
  ⟨⟨cls, class?_newTemp plan f cls⟩, False.elim⟩

end

/-- Loads of a spilled register refer to what there is. -/
theorem rooted_reload {dst : Reg} (hs : SlotIn (f.scope plan) s) (hdst : (f.scope plan).class? dst = some s.cls) :
    (f.scope plan).Within ((reload f dst s).2.scope plan) ∧
      ∀ m ∈ (reload f dst s).1, m.Rooted ((reload f dst s).2.scope plan) := by
  rw [reload]
  split
  · have hw := within_newTemp plan f .gprLow
    have haddr : (Pseudo.frameAddr (f.newTemp .gprLow).1 s.index 0#32).InScope ((f.newTemp .gprLow).2.scope plan)
        False := .frameAddr (meets_newTemp plan f .gprLow _) hs.2
    have hload : (Pseudo.fload dst .double (.reg (f.newTemp .gprLow).1)).InScope ((f.newTemp .gprLow).2.scope plan)
        False := .fload ⟨⟨_, hw.class? hdst⟩, False.elim⟩ (class?_newTemp plan f .gprLow)
    exact ⟨hw, by simpa using ⟨⟨rfl, haddr⟩, ⟨rfl, hload⟩⟩⟩
  all_goals
    have hload : (Pseudo.load dst .word .zero (.frame s.index) 0#32).InScope (f.scope plan) False :=
      .load ⟨⟨_, hdst⟩, False.elim⟩ ⟨by simp [MemBase.regs], fun i hi => by cases hi; exact hs.2⟩
    exact ⟨.refl _, by simpa using ⟨rfl, hload⟩⟩

theorem rooted_saveBack {src : Reg} (hs : SlotIn (f.scope plan) s) (hsrc : (f.scope plan).class? src = some s.cls) :
    (f.scope plan).Within ((saveBack f src s).2.scope plan) ∧
      ∀ m ∈ (saveBack f src s).1, m.Rooted ((saveBack f src s).2.scope plan) := by
  rw [saveBack]
  split
  · have hw := within_newTemp plan f .gprLow
    have haddr : (Pseudo.frameAddr (f.newTemp .gprLow).1 s.index 0#32).InScope ((f.newTemp .gprLow).2.scope plan)
        False := .frameAddr (meets_newTemp plan f .gprLow _) hs.2
    have hstore : (Pseudo.fstore src .double (.reg (f.newTemp .gprLow).1)).InScope ((f.newTemp .gprLow).2.scope plan)
        False := .fstore ⟨⟨_, hw.class? hsrc⟩, False.elim⟩ (class?_newTemp plan f .gprLow)
    exact ⟨hw, by simpa using ⟨⟨rfl, haddr⟩, ⟨rfl, hstore⟩⟩⟩
  all_goals
    have hstore : (Pseudo.store src .word (.frame s.index) 0#32).InScope (f.scope plan) False :=
      .store ⟨⟨_, hsrc⟩, False.elim⟩ ⟨by simp [MemBase.regs], fun i hi => by cases hi; exact hs.2⟩
    exact ⟨.refl _, by simpa using ⟨rfl, hstore⟩⟩

structure Spilled.Rooted (plan : FramePlan) (sp : Spilled) : Prop where
  before : ∀ m ∈ sp.before, m.Rooted (sp.routine.scope plan)
  inst : sp.inst.Rooted (sp.routine.scope plan)
  after : ∀ m ∈ sp.after, m.Rooted (sp.routine.scope plan)

section

variable (h : sp.Rooted plan) (hs : SlotIn (sp.routine.scope plan) s)

include h hs

/-- A temporary takes the place of a register that is read. It has the class of the register, so it may be an
address. -/
theorem Spilled.Rooted.read :
    (sp.routine.scope plan).Within ((sp.read s).routine.scope plan) ∧ (sp.read s).Rooted plan := by
  have hw := within_newTemp plan sp.routine s.cls
  have htemp := class?_newTemp plan sp.routine s.cls
  obtain ⟨hw', hcode⟩ := rooted_reload (hs.mono hw) htemp
  have hall := hw.trans hw'
  have hclass : ∀ r c, (sp.routine.scope plan).class? r = some c →
      ((reload (sp.routine.newTemp s.cls).2 (sp.routine.newTemp s.cls).1 s).2.scope plan).class?
        (if r = .virt s.vreg then (sp.routine.newTemp s.cls).1 else r) = some c := by
    intro r c hr
    split
    · next he =>
      rw [he, hs.1] at hr
      exact hr ▸ hw'.class? htemp
    · exact hall.class? hr
  have hknows : ∀ r, (sp.routine.scope plan).Knows r →
      ((reload (sp.routine.newTemp s.cls).2 (sp.routine.newTemp s.cls).1 s).2.scope plan).Knows
        (if r = .virt s.vreg then (sp.routine.newTemp s.cls).1 else r) := by
    intro r hr
    split
    · exact Scope.knows_of_class? (hw'.class? htemp)
    · exact hall.knows hr
  refine ⟨hall, fun m hm => ?_, ⟨?_, ?_⟩, fun m hm => (h.after m hm).mono hall⟩
  · rcases List.mem_append.mp hm with hm | hm
    · exact (h.before m hm).mono hall
    · exact hcode m hm
  · change (sp.inst.mapRegs _).isFrameOp = false
    rw [Pseudo.mapRegs_eq_rename, Pseudo.isFrameOp_rename, h.inst.frameOp]
  · change (sp.inst.mapRegs _).InScope _ False
    rw [Pseudo.mapRegs_eq_rename]
    refine h.inst.scope.rename hall (fun r hr => hknows r (h.inst.scope.known r hr)) (fun d hd => ⟨?_, fun q hq => ?_⟩)
      fun r hr => hclass r _ (h.inst.scope.base r hr)
    · exact hknows d (h.inst.scope.known d (Pseudo.mem_regs_of_dst? hd))
    · split at hq
      · cases hq
      · exact h.inst.scope.result q (by rw [hd, hq])

/-- A temporary takes the place of the result. -/
theorem Spilled.Rooted.write :
    (sp.routine.scope plan).Within ((sp.store s).routine.scope plan) ∧ (sp.store s).Rooted plan := by
  have hw := within_newTemp plan sp.routine s.cls
  have htemp := class?_newTemp plan sp.routine s.cls
  obtain ⟨hw', hcode⟩ := rooted_saveBack (hs.mono hw) htemp
  have hall := hw.trans hw'
  refine ⟨hall, fun m hm => (h.before m hm).mono hall, ⟨?_, ?_⟩, fun m hm => ?_⟩
  · change (sp.inst.withDst _).isFrameOp = false
    rw [Pseudo.withDst_eq_rename, Pseudo.isFrameOp_rename, h.inst.frameOp]
  · change (sp.inst.withDst _).InScope _ False
    rw [Pseudo.withDst_eq_rename]
    refine h.inst.scope.rename hall (fun r hr => hall.knows (h.inst.scope.known r hr))
      (fun d hd => ⟨?_, fun q hq => ?_⟩) fun r hr => hall.class? (h.inst.scope.base r hr)
    · exact Scope.knows_of_class? (hw'.class? htemp)
    · cases hq
  · rcases List.mem_append.mp hm with hm | hm
    · exact (h.after m hm).mono hall
    · exact hcode m hm

theorem Spilled.Rooted.step (m : Pseudo) :
    (sp.routine.scope plan).Within ((sp.pass m s).routine.scope plan) ∧ (sp.pass m s).Rooted plan := by
  have hread : (sp.routine.scope plan).Within
      ((if m.uses.contains (.virt s.vreg) then sp.read s else sp).routine.scope plan) ∧
      (if m.uses.contains (.virt s.vreg) then sp.read s else sp).Rooted plan := by
    split
    · exact h.read hs
    · exact ⟨.refl _, h⟩
  rw [Spilled.pass]
  split
  · obtain ⟨hw, hrooted⟩ := hread.2.write (hs.mono hread.1)
    exact ⟨hread.1.trans hw, hrooted⟩
  · exact hread

end

theorem Spilled.Rooted.foldl (h : sp.Rooted plan) (hs : ∀ s ∈ slots, SlotIn (sp.routine.scope plan) s) (m : Pseudo) :
    (sp.routine.scope plan).Within ((slots.foldl (Spilled.pass m) sp).routine.scope plan) ∧
      (slots.foldl (Spilled.pass m) sp).Rooted plan := by
  induction slots generalizing sp with
  | nil => exact ⟨.refl _, h⟩
  | cons s slots ih =>
    obtain ⟨hw, hstep⟩ := h.step (hs s (by simp)) m
    obtain ⟨hw', hrest⟩ := ih hstep fun t ht => (hs t (by simp [ht])).mono hw
    exact ⟨hw.trans hw', hrest⟩

theorem rooted_patchInst {m : Pseudo} (hs : ∀ s ∈ slots, SlotIn (f.scope plan) s) (hm : m.Rooted (f.scope plan)) :
    (f.scope plan).Within ((patchInst slots f m).2.scope plan) ∧
      ∀ op ∈ (patchInst slots f m).1, op.Rooted ((patchInst slots f m).2.scope plan) := by
  have hstart : Spilled.Rooted plan ⟨f, [], m, []⟩ := ⟨by simp, hm, by simp⟩
  obtain ⟨hw, hdone⟩ := hstart.foldl hs m
  refine ⟨hw, fun op hop => ?_⟩
  rcases List.mem_append.mp hop with hop | hop
  · exact hdone.before op hop
  · rcases List.mem_cons.mp hop with rfl | hop
    · exact hdone.inst
    · exact hdone.after op hop

theorem rooted_patchBlock {block : List Pseudo} (hs : ∀ s ∈ slots, SlotIn (f.scope plan) s)
    (hblock : ∀ m ∈ block, m.Rooted (f.scope plan)) :
    (f.scope plan).Within ((patchBlock slots f block).2.scope plan) ∧
      ∀ m ∈ (patchBlock slots f block).1, m.Rooted ((patchBlock slots f block).2.scope plan) := by
  induction block generalizing f with
  | nil => exact ⟨.refl _, by simp [patchBlock]⟩
  | cons m block ih =>
    obtain ⟨hw, hcode⟩ := rooted_patchInst hs (hblock m (by simp))
    obtain ⟨hw', hcodes⟩ := ih (fun s h => (hs s h).mono hw) fun op hop => (hblock op (by simp [hop])).mono hw
    refine ⟨hw.trans hw', fun op hop => ?_⟩
    rcases List.mem_append.mp hop with hop | hop
    · exact (hcode op hop).mono hw'
    · exact hcodes op hop

theorem rooted_patchBlocks {blocks : List (List Pseudo)} (hs : ∀ s ∈ slots, SlotIn (f.scope plan) s)
    (hblocks : ∀ block ∈ blocks, ∀ m ∈ block, m.Rooted (f.scope plan)) :
    (f.scope plan).Within ((patchBlocks slots f blocks).2.scope plan) ∧
      ∀ block ∈ (patchBlocks slots f blocks).1, ∀ m ∈ block, m.Rooted ((patchBlocks slots f blocks).2.scope plan) := by
  induction blocks generalizing f with
  | nil => exact ⟨.refl _, by simp [patchBlocks]⟩
  | cons block blocks ih =>
    obtain ⟨hw, hcode⟩ := rooted_patchBlock hs (hblocks block (by simp))
    obtain ⟨hw', hcodes⟩ := ih (fun s h => (hs s h).mono hw) fun b hb m hm => (hblocks b (by simp [hb]) m hm).mono hw
    refine ⟨hw.trans hw', fun b hb m hm => ?_⟩
    rcases List.mem_cons.mp hb with rfl | hb
    · exact (hcode m hm).mono hw'
    · exact hcodes b hb m hm

/-- Slots are among the frame objects. -/
theorem addSlots_slotIn {slots' : List SpillSlot} (h : addSlots f vs slots plan = (.ok slots', plan'))
    (hs : ∀ s ∈ slots, SlotIn (f.scope plan) s) : ∀ s ∈ slots', SlotIn (f.scope plan') s := by
  induction vs generalizing slots plan with
  | nil =>
    cases h
    exact hs
  | cons v rest ih =>
    rw [addSlots] at h
    split at h
    · cases h
    · next cls hcls =>
      split at h
      · cases h
      · refine ih h fun s hmem => ?_
        have hlen : (plan.addLocal (spillSize cls) wordSize).2.objects.length = plan.objects.length + 1 := by
          simp [FramePlan.addLocal, FramePlan.push]
        rcases mem_insertSlot hmem with rfl | hmem
        · refine ⟨hcls, ?_⟩
          change plan.objects.length < (plan.addLocal (spillSize cls) wordSize).2.objects.length
          omega
        · refine (hs s hmem).mono ⟨List.prefix_refl _, Nat.le_refl _, ?_, rfl⟩
          change plan.objects.length ≤ (plan.addLocal (spillSize cls) wordSize).2.objects.length
          omega

/-- Spill code refers only to what there is, and leaves the rest so. -/
theorem rooted_insertSpillCode {g : Routine} (hf : f.Rooted plan) (h : insertSpillCode f plan vs = (.ok g, plan')) :
    g.Rooted plan' := by
  obtain ⟨slots, rows, hadd, hinto⟩ := insertSpillCode_inv h
  obtain ⟨more, hmore⟩ := (addSlots_grows hadd).objects
  have hw : (f.scope plan).Within (f.scope plan') :=
    ⟨List.prefix_refl _, Nat.le_refl _, by simp [Routine.scope, hmore], rfl⟩
  have hlen : g.blocks.length = f.blocks.length := by rw [hinto.code, hinto.source, List.length_map, List.length_map]
  obtain ⟨hgrown, hblocks⟩ :=
    rooted_patchBlocks (addSlots_slotIn hadd (by simp)) fun block hb m hm => (hf block hb m hm).mono hw
  rw [insertSpillCode_eq, hadd] at h
  cases h
  have hscope :
      Routine.scope { (patchBlocks slots f f.blocks).2 with blocks := (patchBlocks slots f f.blocks).1 } plan' =
        (patchBlocks slots f f.blocks).2.scope plan' := by
    rw [Routine.scope, hlen]
    exact congrArg (Scope.mk _ _ _) hgrown.blocks
  rw [Routine.Rooted, hscope]
  exact hblocks

end Spill

end Allocation

namespace Selection

variable {f : Ir.Function} {sel : Selected}

theorem selectOperations_rooted (h : f.selectOperations = .ok sel) : sel.routine.Rooted sel.plan := by
  intro block hblock m hm
  obtain ⟨b, hb⟩ := List.mem_iff_getElem?.mp hblock
  have hscope := ((selectOperations_inScope h).2 b block hb).2.2 m hm
  have hlive : ∀ b ∈ reachable f, ∀ c ∈ successorsOf f b, True := fun _ _ _ _ => trivial
  have hbody := selectOperations_body hlive h block hblock m hm
  exact ⟨hbody.frameOp, hscope.known, hscope.result, hscope.frame, hscope.address, hscope.base, False.elim⟩

/-- Allocation finds classes and blocks for all that the function refers to. -/
theorem selectOperations_proper (h : f.selectOperations = .ok sel) : sel.routine.Proper := by
  have hshaped := selectOperations_shaped h
  refine ⟨fun block hblock c hc => ?_, fun block hblock m hm v hv => ?_⟩
  · obtain ⟨m, hm, hc⟩ := List.mem_filterMap.mp hc
    have htarget : m.target? = some c := by
      split at hc
      · exact hc
      · exact hc
      · cases hc
    obtain ⟨next, hnext, -⟩ := hshaped.ended c (hshaped.leads block hblock m hm c htarget)
    exact (List.getElem?_eq_some_iff.mp hnext).1
  · have hlt : v < sel.routine.classes.length := (selectOperations_rooted h block hblock m hm).scope.known _ hv v rfl
    rw [Routine.classOf?, List.getElem?_eq_getElem hlt]
    rfl

end Selection

/-- An operation over assigned registers that refers only to what there is. -/
structure Pseudo.Resolved (S : Scope) (m : Pseudo) : Prop where
  regs : ∀ r ∈ m.regs, ∃ q, r = .phys q
  frame : ∀ i, m.frameRef? = some i → i < S.objects
  address : ∀ dst target, m = .loadAddr dst target → S.Names target
  base : ∀ r, m.floatBase? = some r → ∃ n : UInt8, n < 16 ∧ r = .phys (.general n)

/-- Such an operation of a body, with its result in a register that passes arguments or in one that was given to a
virtual register. -/
structure Pseudo.Assigned (S : Scope) (map : RegMap) (m : Pseudo) : Prop extends Pseudo.Resolved S m where
  frameOp : m.isFrameOp = false
  result : ∀ r, m.dst? = some (.phys r) → r ∈ argumentRegs ∨ ∃ v, map v = some r

theorem Pseudo.floatBase?_mem_regs {m : Pseudo} {r : Reg} (h : m.floatBase? = some r) : r ∈ m.regs := by
  cases m with
  | fload dst prec base | fstore src prec base =>
    cases base with
    | reg r => cases h; simp [regs, FMemBase.regs]
    | symbol s => cases h
  | _ => cases h

section Framing

open Allocation

variable {reserved : Reserved}

/-- Once a scan spills nothing, every operation has its registers. -/
theorem Routine.Rooted.assigned {f : Routine} {plan : FramePlan} {a : Assignment} (hf : f.Rooted plan)
    (hscan : linearScan f reserved = .ok a) (hs : a.spilled = []) :
    ∀ block ∈ (f.assign a.regMap).blocks, ∀ m ∈ block, m.Assigned (f.scope plan) a.regMap := by
  intro block hblock m' hm'
  obtain ⟨old, hold, rfl⟩ := List.mem_map.mp hblock
  obtain ⟨m, hm, rfl⟩ := List.mem_map.mp hm'
  have h := hf old hold m hm
  have hgiven {v : Nat} (hv : .virt v ∈ m.regs) : ∃ q cls, a.regMap v = some q ∧ f.classOf? v = some cls ∧
      q.inClass cls = true := by
    obtain ⟨q, cls, hq, hcls, hin, -⟩ := linearScan_assigns hscan hs (occurs_iff.mpr ⟨old, hold, m, hm, hv⟩)
    exact ⟨q, cls, hq, hcls, hin⟩
  rw [Pseudo.mapRegs_eq_rename]
  refine ⟨⟨fun r hr => ?_, fun i hi => ?_, fun dst target hload => ?_, fun r hr => ?_⟩, ?_, fun r hr => ?_⟩
  · have happly : ∀ u ∈ m.regs, ∃ q, a.regMap.apply u = .phys q := by
      intro u hu
      cases u with
      | phys q => exact ⟨q, rfl⟩
      | virt v =>
        obtain ⟨q, cls, hq, -⟩ := hgiven hu
        exact ⟨q, RegMap.apply_virt hq⟩
    rcases Pseudo.mem_regs_rename hr with ⟨u, hu, rfl⟩ | ⟨d, hd, rfl⟩
    · exact happly u hu
    · exact happly d (Pseudo.mem_regs_of_dst? hd)
  · rw [Pseudo.frameRef?_rename] at hi
    exact h.scope.frame i hi
  · obtain ⟨d, rfl⟩ := Pseudo.rename_eq_loadAddr hload
    exact h.scope.address d target rfl
  · rw [Pseudo.floatBase?_rename, Option.map_eq_some_iff] at hr
    obtain ⟨u, hu, rfl⟩ := hr
    have hclass := h.scope.base u hu
    cases u with
    | phys q => cases hclass
    | virt v =>
      obtain ⟨q, cls, hq, hcls, hin⟩ := hgiven (Pseudo.floatBase?_mem_regs hu)
      obtain rfl : cls = .gprLow := Option.some.inj (hcls.symm.trans hclass)
      cases q with
      | general n => exact ⟨n, by simpa [Register.inClass] using hin, RegMap.apply_virt hq⟩
      | _ => cases hin
  · rw [Pseudo.isFrameOp_rename, h.frameOp]
  · rw [Pseudo.dst?_rename, Option.map_eq_some_iff] at hr
    obtain ⟨d, hd, hr⟩ := hr
    cases d with
    | phys q => exact .inl (h.scope.result r (by rw [hd]; exact congrArg some hr))
    | virt v =>
      obtain ⟨q, cls, hq, -⟩ := hgiven (Pseudo.mem_regs_of_dst? hd)
      rw [RegMap.apply_virt hq] at hr
      exact .inr ⟨v, Reg.phys.inj hr ▸ hq⟩

structure Framing (f : Ir.Function) (sel : Selected) (al : Allocated) (frame : Frame) (g : Routine) : Prop where
  selected : f.selectOperations = .ok sel
  allocated : (allocate scanning sel.plan.reserved sel.routine sel.plan).result = .ok al
  scanned : linearScan al.routine sel.plan.reserved = .ok al.assignment
  unspilled : al.assignment.spilled = []
  plan : al.plan = { sel.plan with objects := al.plan.objects }
  finalized : FramePlan.finalize { al.plan with calleeSaved := al.assignment.calleeSaved } = .ok frame
  framed : (al.routine.assign al.assignment.regMap).withFrame frame = .ok g
  shaped : (al.routine.assign al.assignment.regMap).Shaped (Selection.reachable f)
  ops : ∀ block ∈ (al.routine.assign al.assignment.regMap).blocks, ∀ m ∈ block,
    m.Assigned (al.routine.scope al.plan) al.assignment.regMap

variable {f : Ir.Function}

theorem framing_of_framed {frame : Frame} {g : Routine} (h : f.framed = .ok (frame, g)) :
    ∃ sel al, Framing f sel al frame g := by
  obtain ⟨sel, al, hsel, hal, hframe, hwith⟩ := framed_eq_ok h
  obtain ⟨⟨hshaped, hrooted, hplan⟩, ⟨_, hscan⟩, hdone⟩ := rounds_keeps
    (P := fun g p => g.Shaped (Selection.reachable f) ∧ g.Rooted p ∧ p = { sel.plan with objects := p.objects })
    (fun g p vs g' p' hg hinsert => by
      obtain ⟨slots, rows, hadd, hinto⟩ := insertSpillCode_inv hinsert
      refine ⟨hg.1.weave hinto.joins, rooted_insertSpillCode hg.2.1 hinsert, ?_⟩
      rw [addSlots_plan hadd, hg.2.2])
    ⟨Selection.selectOperations_shaped hsel, Selection.selectOperations_rooted hsel, rfl⟩ hal
  exact ⟨sel, al, hsel, hal, hscan, hdone, hplan, hframe, hwith, hshaped.assign _,
    hrooted.assigned hscan hdone⟩

/-- Operations of prologue and epilogue refer to nothing. -/
theorem Pseudo.Resolved.of_isFrameOp {S : Scope} {m : Pseudo} (h : m.isFrameOp = true) : m.Resolved S := by
  cases m with
  | push r | pop r | spAdjust delta | setFrameBase | restoreSp =>
    refine ⟨fun r hr => ?_, fun i hi => ?_, fun dst target he => ?_, fun r hr => ?_⟩
    · cases hr
    · cases hi
    · cases he
    · cases hr
  | _ => cases h

theorem FramePlan.length_exactPlaces (top : Nat) (objects : List FrameObject) :
    (exactPlaces top objects).length = objects.length := by
  induction objects generalizing top with
  | nil => rfl
  | cons o objects ih => cases o <;> exact congrArg (· + 1) (ih _)

namespace Framing

variable {sel : Selected} {al : Allocated} {frame : Frame} {g : Routine} (h : Framing f sel al frame g)
  {block : List Pseudo} {m : Pseudo}
include h

theorem blocks_eq : ∃ entry rest, (al.routine.assign al.assignment.regMap).blocks = entry :: rest ∧
    g.blocks = (frame.prologue ++ insertBeforeReturn frame.epilogue entry) ::
      rest.map (insertBeforeReturn frame.epilogue) := by
  obtain ⟨prologue, hentry, hg⟩ := bind_eq_ok.mp h.framed
  obtain rfl : frame.prologue = prologue := by
    rw [Frame.entryCode] at hentry
    split at hentry
    · cases hentry
    · exact Except.ok.inj hentry
  have hreturn : ∀ m ∈ frame.prologue, m.isReturn = false := fun m hm =>
    Pseudo.isReturn_of_goes_on (.inl (Pseudo.passes_of_not_isTerminator
      (Pseudo.isTerminator_of_isFrameOp (frame.prologue_frameOp hm))))
  cases hg
  cases hblocks : (al.routine.assign al.assignment.regMap).blocks with
  | nil =>
    have hlt := h.shaped.lt 0 h.shaped.entry
    rw [hblocks] at hlt
    cases hlt
  | cons entry rest =>
    refine ⟨entry, rest, rfl, ?_⟩
    rw [List.map_cons, insertBeforeReturn_append hreturn]

theorem ops_cases (hblock : block ∈ g.blocks) (hm : m ∈ block) :
    m ∈ frame.prologue ∨ m ∈ frame.epilogue ∨ m.Assigned (al.routine.scope al.plan) al.assignment.regMap := by
  obtain ⟨entry, rest, hold, hnew⟩ := h.blocks_eq
  have hframed {old : List Pseudo} (hmem : old ∈ (al.routine.assign al.assignment.regMap).blocks)
      (hm : m ∈ insertBeforeReturn frame.epilogue old) : m ∈ frame.prologue ∨ m ∈ frame.epilogue ∨
        m.Assigned (al.routine.scope al.plan) al.assignment.regMap :=
    .inr ((mem_insertBeforeReturn hm).imp id (h.ops old hmem m))
  rw [hnew] at hblock
  rcases List.mem_cons.mp hblock with rfl | hblock
  · rcases List.mem_append.mp hm with hm | hm
    · exact .inl hm
    · exact hframed (by simp [hold]) hm
  · obtain ⟨old, hmem, rfl⟩ := List.mem_map.mp hblock
    exact hframed (by simp [hold, hmem]) hm

theorem resolved (hblock : block ∈ g.blocks) (hm : m ∈ block) : m.Resolved (al.routine.scope al.plan) := by
  rcases h.ops_cases hblock hm with hm | hm | hm
  · exact .of_isFrameOp (frame.prologue_frameOp hm)
  · exact .of_isFrameOp (frame.epilogue_frameOp hm)
  · exact hm.toResolved

theorem length_blocks : al.routine.blocks.length = g.blocks.length := by
  obtain ⟨prologue, -, hg⟩ := bind_eq_ok.mp h.framed
  cases hg
  have hlen : al.routine.blocks.length = (al.routine.assign al.assignment.regMap).blocks.length := by
    simp [Routine.assign]
  rw [hlen]
  cases (al.routine.assign al.assignment.regMap).blocks <;> simp

theorem pool_eq : al.routine.pool = g.pool := by
  obtain ⟨prologue, -, hg⟩ := bind_eq_ok.mp h.framed
  cases hg
  rfl

theorem length_objects : al.plan.objects.length = frame.places.length := by
  rw [FramePlan.finalize_eq_ok h.finalized]
  exact (FramePlan.length_exactPlaces 0 _).symm

end Framing

private theorem grounded_layoutObjects (top : Nat) (objects : List FrameObject) :
    Grounded True (layoutObjects top objects) := by
  induction objects generalizing top with
  | nil => exact .ok _
  | cons o objects ih =>
    cases o with
    | «local» size align =>
      exact (grounded_unsigned32 fun _ => trivial).bind fun _ _ =>
        (grounded_unsigned32 fun _ => trivial).bind fun _ _ => (ih _).bind fun _ _ => .ok _
    | incoming offset size => exact (ih _).bind fun _ _ => .ok _
    | returnAddress => exact (ih _).bind fun _ _ => .ok _

/-- Laying out a frame fails only for its size. -/
theorem grounded_finalize (plan : FramePlan) : Grounded True plan.finalize :=
  (grounded_layoutObjects _ _).bind fun _ _ => (grounded_unsigned32 fun _ => trivial).bind fun _ _ =>
    (grounded_unsigned32 fun _ => trivial).bind fun _ _ => (grounded_unsigned32 fun _ => trivial).bind fun _ _ => .ok _

theorem grounded_withFrame (g : Routine) (frame : Frame) : Grounded True (g.withFrame frame) := by
  refine .bind ?_ fun _ _ => .ok _
  rw [Frame.entryCode]
  split
  · exact .aborted
  · exact .ok _

/-- An assignment for whatever occurs leaves no virtual register. -/
theorem Allocation.Allocated.Complete.assignAll {al : Allocated} (h : al.Complete reserved) :
    al.routine.assignAll al.assignment.regMap = .ok (al.routine.assign al.assignment.regMap) := by
  rw [Routine.assignAll]
  split
  · next v hv =>
    obtain ⟨block, hblock, hv⟩ := List.exists_of_findSome?_eq_some hv
    obtain ⟨m, hm, hv⟩ := List.exists_of_findSome?_eq_some hv
    obtain ⟨r, hr, hv⟩ := List.exists_of_findSome?_eq_some hv
    cases r with
    | phys q => cases hv
    | virt u =>
      obtain ⟨q, hq⟩ := Option.isSome_iff_exists.mp (h.covers u (occurs_iff.mpr ⟨block, hblock, m, hm, hr⟩))
      rw [RegMap.missing?, hq] at hv
      cases hv
  · rfl

/-- Selected operations get registers, or there are none left of a class. -/
theorem allocate_selected {sel : Selected} (h : f.selectOperations = .ok sel) :
    (∃ al, (allocate scanning sel.plan.reserved sel.routine sel.plan).result = .ok al ∧
      al.Complete sel.plan.reserved) ∨
    ∃ cls, (allocate scanning sel.plan.reserved sel.routine sel.plan).result =
      fail (.registerClassExhausted cls sel.routine.name) := by
  have hproper := Selection.selectOperations_proper h
  have hfew := length_ordinaries_le hproper
  exact (rounds_converge hproper sel.plan.reserved 0 sel.plan (show _ < sel.routine.numVRegs + 2 by omega)).2

/-- Up to where its frame is in place, a function that passed its checks does not fail for a reference. -/
theorem grounded_framed (h : f.verify = .ok ()) : Grounded True f.framed := by
  refine ((Selection.grounded_selectOperations h).imp fun _ => trivial).bind fun sel hsel => ?_
  obtain ⟨al, hal, hcomplete⟩ | ⟨cls, hcls⟩ := allocate_selected hsel
  · rw [hal, ok_bind, Allocated.framed, hcomplete.assignAll, ok_bind]
    exact (grounded_finalize _).bind fun frame _ => (grounded_withFrame _ frame).bind fun _ _ => .ok _
  · rw [hcls]
    exact .failed rfl

end Framing

end DirectPage
