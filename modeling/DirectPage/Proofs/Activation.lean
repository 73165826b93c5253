import DirectPage.Proofs.SelectedScope
import DirectPage.Proofs.StackDepth

/-! Prologue and epilogue over all ways through a function.

Where no block leads back to the entry, every way from the entry to a return runs the prologue
once, first of all, and the epilogue once, last of all. The stack pointer is then back where it was. -/
namespace DirectPage

open Selection (BodyOp bodyOp_of_defs bodyOp_of_dst?)
open Allocation (opAt? opAt?_some)

namespace Pseudo

variable {σ δ : Reg → Reg} {m : Pseudo}

theorem isFrameOp_rename (σ δ : Reg → Reg) (m : Pseudo) : (m.rename σ δ).isFrameOp = m.isFrameOp := by
  cases m with
  | call target args clobbers => cases target <;> rfl
  | _ => rfl

theorem isDynAlloc_rename (σ δ : Reg → Reg) (m : Pseudo) : (m.rename σ δ).isDynAlloc = m.isDynAlloc := by
  cases m with
  | call target args clobbers => cases target <;> rfl
  | _ => rfl

theorem copied?_rename (σ δ : Reg → Reg) (m : Pseudo) : (m.rename σ δ).copied? = m.copied?.map σ := by
  cases m with
  | call target args clobbers => cases target <;> rfl
  | _ => rfl

end Pseudo

section Renaming

variable {targets : Ir.BlockId → Prop} {hasBase varSized : Bool} {σ δ : Reg → Reg} {m : Pseudo}

/-- Other registers in an operation leave the frame alone unless its result goes to the frame base. -/
theorem Selection.BodyOp.rename (h : BodyOp targets hasBase varSized m) (σ : Reg → Reg)
    (hδ : ∀ r, δ (.phys r) = .phys r)
    (hbase : hasBase = true → ∀ v, .virt v ∈ m.defs → δ (.virt v) ≠ .phys frameBase) :
    BodyOp targets hasBase varSized (m.rename σ δ) := by
  refine ⟨?_, fun hb hmem => ?_, ?_, ?_⟩
  · rw [Pseudo.isFrameOp_rename, h.frameOp]
  · rw [Pseudo.defs_rename hδ, List.mem_map] at hmem
    obtain ⟨r, hr, he⟩ := hmem
    cases r with
    | virt v => exact hbase hb v hr he
    | phys r =>
      rw [hδ] at he
      exact h.base hb (he ▸ hr)
  · rw [Pseudo.isDynAlloc_rename]
    exact h.dyn
  · rw [Pseudo.target?_rename]
    exact h.target

end Renaming

namespace Routine.Bodied

open Allocation

variable {f g : Routine} {regs : List Register} {hasBase varSized : Bool} {m : Pseudo} {p : Patch}

/-- Spill code leaves the frame alone, and copies nothing. -/
private theorem spill_op (h : m ∈ p.piece.before ∨ m ∈ p.piece.after) :
    (∀ hasBase varSized, BodyOp (· ≠ 0) hasBase varSized m) ∧ m.isTerminator = false ∧ m.copied? = none := by
  rcases h with h | h
  · obtain ⟨c, -, hm⟩ := List.mem_flatMap.mp h
    rcases c.mem_load hm with ⟨-, rfl | rfl⟩ | ⟨-, rfl⟩ <;> exact ⟨fun _ _ => bodyOp_of_dst? rfl rfl, rfl, rfl⟩
  · obtain ⟨c, -, hm⟩ := List.mem_flatMap.mp h
    rcases c.mem_save hm with ⟨-, rfl | rfl⟩ | ⟨-, rfl⟩
    · exact ⟨fun _ _ => bodyOp_of_dst? rfl rfl, rfl, rfl⟩
    · exact ⟨fun _ _ => bodyOp_of_defs rfl rfl rfl rfl, rfl, rfl⟩
    · exact ⟨fun _ _ => bodyOp_of_defs rfl rfl rfl rfl, rfl, rfl⟩

private theorem mem_code {p : Piece} (h : m ∈ p.code) : m = p.inst ∨ m ∈ p.before ∨ m ∈ p.after := by
  rw [Piece.code, List.mem_append, List.mem_cons] at h
  grind

private theorem patch_op (hop : BodyOp (· ≠ 0) hasBase varSized p.op) (hm : m ∈ p.piece.code) :
    BodyOp (· ≠ 0) hasBase varSized m := by
  rcases mem_code hm with rfl | hm
  · refine hop.rename _ (Carrier.swap_phys _) fun _ v _ he => ?_
    rcases Carrier.swap_cases p.saves (.virt v) with ⟨hswap, -⟩ | ⟨c, -, -, hswap⟩ <;>
    · rw [hswap] at he
      cases he
  · exact (spill_op hm).1 _ _

private theorem patch_copied (p : Patch) :
    p.piece.code.filterMap Pseudo.copied? = (p.op.copied?.map (Carrier.swap p.loads)).toList := by
  have hnone (ms : List Pseudo) (hms : ∀ m ∈ ms, m.copied? = none) : ms.filterMap Pseudo.copied? = [] :=
    List.filterMap_eq_nil_iff.mpr hms
  have hinst : p.piece.inst.copied? = p.op.copied?.map (Carrier.swap p.loads) := Pseudo.copied?_rename _ _ _
  rw [Piece.code, List.filterMap_append, List.filterMap_cons, hinst, hnone _ fun m hm => (spill_op (.inl hm)).2.2,
    hnone _ fun m hm => (spill_op (.inr hm)).2.2]
  cases p.op.copied? <;> rfl

private theorem patches_copied {ps : List Patch} (h : (ps.map Patch.op).filterMap Pseudo.copied? = regs.map .phys) :
    (codes ps).filterMap Pseudo.copied? = regs.map .phys := by
  induction ps generalizing regs with
  | nil => exact h
  | cons p ps ih =>
    rw [codes, List.flatMap_cons, List.filterMap_append, patch_copied, ← codes]
    rw [List.map_cons, List.filterMap_cons] at h
    cases hc : p.op.copied? with
    | none =>
      rw [hc] at h
      simpa using ih h
    | some src =>
      rw [hc] at h
      cases regs with
      | nil => cases h
      | cons r regs =>
        obtain ⟨rfl, hrest⟩ := List.cons.inj h
        rw [ih hrest, Option.map_some, Carrier.swap_phys]
        rfl

theorem spill {slots : List SpillSlot} {rows : List (List Patch)} (h : f.Bodied regs hasBase varSized)
    (hs : SpilledInto slots rows f g) : g.Bodied regs hasBase varSized := by
  refine ⟨fun block hblock m hm => ?_, ?_⟩
  · rw [hs.code] at hblock
    obtain ⟨row, hrow, rfl⟩ := List.mem_map.mp hblock
    obtain ⟨p, hp, hm⟩ := List.mem_flatMap.mp hm
    refine patch_op (h.ops (row.map Patch.op) ?_ p.op (List.mem_map_of_mem hp)) hm
    rw [hs.source]
    exact List.mem_map_of_mem hrow
  · obtain ⟨pre, rest, hb, hpre⟩ := h.opens
    rw [hs.source, List.getElem?_map, Option.map_eq_some_iff] at hb
    obtain ⟨row, hrow, hsplit⟩ := hb
    obtain ⟨ps, qs, rfl, rfl, rfl⟩ := List.map_eq_append_iff.mp hsplit
    refine ⟨codes ps, codes qs, ?_, fun m hm => ?_, patches_copied hpre.copies⟩
    · rw [hs.code, List.getElem?_map, hrow, Option.map_some, codes, List.flatMap_append]
      rfl
    · obtain ⟨p, hp, hm⟩ := List.mem_flatMap.mp hm
      rcases mem_code hm with rfl | hm
      · exact (Pseudo.isTerminator_rename _ _ _).trans (hpre.straight p.op (List.mem_map_of_mem hp))
      · exact (spill_op hm).2.1

theorem assign {reserved : Reserved} {a : Assignment} (h : f.Bodied regs true varSized)
    (hscan : linearScan f reserved = .ok a) (hs : a.spilled = []) :
    (f.assign a.regMap).Bodied regs reserved.frameBase varSized := by
  refine ⟨fun block hblock m' hm' => ?_, ?_⟩
  · obtain ⟨old, hold, rfl⟩ := List.mem_map.mp hblock
    obtain ⟨m, hm, rfl⟩ := List.mem_map.mp hm'
    have hop : BodyOp (· ≠ 0) reserved.frameBase varSized m :=
      (h.ops old hold m hm).mono (fun _ => id) (fun _ => rfl) id
    rw [Pseudo.mapRegs_eq_rename]
    refine hop.rename _ a.regMap.apply_phys fun hbase v hv he => ?_
    have hoccurs : Occurs f v := by
      obtain ⟨b, hb⟩ := List.mem_iff_getElem?.mp hold
      obtain ⟨k, hk⟩ := List.mem_iff_getElem?.mp hm
      exact ⟨b, k, m, by simp [opAt?, hb, hk], Pseudo.virt_mem_regs.mpr (.inr hv)⟩
    obtain ⟨r, -, hr, -, -, hfree⟩ := linearScan_assigns hscan hs hoccurs
    rw [RegMap.apply, hr] at he
    cases he
    simp [Reserved.contains, frameBase, hbase] at hfree
  · obtain ⟨pre, rest, hb, hpre⟩ := h.opens
    refine ⟨pre.map fun m => m.mapRegs a.regMap.apply, rest.map fun m => m.mapRegs a.regMap.apply, ?_,
      fun m' hm' => ?_, ?_⟩
    · rw [Routine.assign, List.getElem?_map, hb, Option.map_some, List.map_append]
    · obtain ⟨m, hm, rfl⟩ := List.mem_map.mp hm'
      rw [Pseudo.mapRegs_eq_rename, Pseudo.isTerminator_rename, hpre.straight m hm]
    · have hcopied : (Pseudo.copied? ∘ fun m : Pseudo => m.mapRegs a.regMap.apply) = fun m : Pseudo =>
          m.copied?.map a.regMap.apply := by
        funext m
        rw [Function.comp_apply, Pseudo.mapRegs_eq_rename, Pseudo.copied?_rename]
      rw [List.filterMap_map, hcopied, ← List.map_filterMap, hpre.copies, List.map_map]
      exact List.map_congr_left fun r _ => a.regMap.apply_phys r

end Routine.Bodied

namespace Allocation

variable {plan : FramePlan} {al : Allocated} {result : Checked (List SpillSlot)} {slots : List SpillSlot} {f : Routine}
  {plan' : FramePlan} {vs : List Nat} {reserved : Reserved} {attempts left : Nat}

/-- A slot is one more local object. -/
theorem addSlots_steps (h : addSlots f vs slots plan = (result, plan')) :
    ∃ sizes : List Nat, plan' = plan.steps (sizes.map (.addLocal · wordSize)) := by
  induction vs generalizing slots plan with
  | nil =>
    cases h
    exact ⟨[], rfl⟩
  | cons v rest ih =>
    rw [addSlots] at h
    split at h
    · cases h
      exact ⟨[], rfl⟩
    · next cls _ =>
      split at h
      · cases h
        exact ⟨[], rfl⟩
      · obtain ⟨sizes, hsizes⟩ := ih h
        exact ⟨spillSize cls :: sizes, hsizes⟩

theorem addSlots_plan (h : addSlots f vs slots plan = (result, plan')) :
    plan' = { plan with objects := plan'.objects } := by
  obtain ⟨sizes, rfl⟩ := addSlots_steps h
  clear h
  induction sizes generalizing plan with
  | nil => rfl
  | cons size sizes ih => exact @ih (plan.addLocal size wordSize).2

/-- What spill code keeps holds of the function that is assigned registers in the end. -/
theorem rounds_keeps {P : Routine → FramePlan → Prop}
    (hspill : ∀ f plan vs g plan', P f plan → insertSpillCode f plan vs = (.ok g, plan') → P g plan')
    {alloc : Allocator} (hf : P f plan) (h : (rounds alloc reserved left attempts f plan).result = .ok al) :
    P al.routine al.plan ∧ (∃ n, alloc n al.routine reserved = .ok al.assignment) ∧ al.assignment.spilled = [] := by
  induction left generalizing attempts f plan with
  | zero => cases h
  | succ left ih =>
    rw [rounds] at h
    split at h
    · cases h
    · next a ha =>
      split at h
      · next hspilled =>
        cases h
        exact ⟨hf, ⟨attempts, ha⟩, List.isEmpty_iff.mp hspilled⟩
      · split at h
        · cases h
        · next g plan' hinsert => exact ih (hspill _ _ _ _ _ hf hinsert) h

/-- All rounds keep it, and change nothing but the objects of the frame. -/
theorem rounds_bodied {regs : List Register} {hasBase varSized : Bool} (hf : f.Bodied regs hasBase varSized)
    (h : (rounds scanning reserved left attempts f plan).result = .ok al) :
    al.routine.Bodied regs hasBase varSized ∧ linearScan al.routine reserved = .ok al.assignment ∧
      al.assignment.spilled = [] ∧ al.plan = { plan with objects := al.plan.objects } := by
  obtain ⟨⟨hbodied, hplan⟩, ⟨_, hscan⟩, hdone⟩ := rounds_keeps
    (P := fun g p => g.Bodied regs hasBase varSized ∧ p = { plan with objects := p.objects })
    (fun g p vs g' p' hg hinsert => by
      obtain ⟨slots, rows, hadd, hinto⟩ := insertSpillCode_inv hinsert
      refine ⟨hg.1.spill hinto, ?_⟩
      rw [addSlots_plan hadd, hg.2]) ⟨hf, rfl⟩ h
  exact ⟨hbodied, hscan, hdone, hplan⟩

end Allocation

section Frames

def returnPieces (code : List Pseudo) : List Pseudo → List Piece
  | [] => []
  | m :: rest =>
    if m.isReturn then { op := m, before := code, inst := m } :: rest.map fun m => { op := m, inst := m }
    else { op := m, inst := m } :: returnPieces code rest

variable {code block : List Pseudo} {p : Piece} {m : Pseudo}

private theorem flatMap_plain (ms : List Pseudo) :
    (ms.map fun m => ({ op := m, inst := m } : Piece)).flatMap Piece.code = ms := by
  induction ms with
  | nil => rfl
  | cons m ms ih => rw [List.map_cons, List.flatMap_cons, ih]; rfl

theorem map_op_returnPieces (code block : List Pseudo) : (returnPieces code block).map Piece.op = block := by
  induction block with
  | nil => rfl
  | cons m rest ih =>
    rw [returnPieces]
    split
    · simp [Function.comp_def]
    · rw [List.map_cons, ih]

theorem insertBeforeReturn_cons (m : Pseudo) (rest : List Pseudo) :
    insertBeforeReturn code (m :: rest) =
      if m.isReturn then code ++ m :: rest else m :: insertBeforeReturn code rest := by
  cases hm : m.isReturn with
  | true => simp [insertBeforeReturn, List.findIdx?_cons, hm]
  | false =>
    cases hk : rest.findIdx? Pseudo.isReturn with
    | none => simp [insertBeforeReturn, List.findIdx?_cons, hm, hk]
    | some k => simp [insertBeforeReturn, List.findIdx?_cons, hm, hk]

theorem flatMap_code_returnPieces (code block : List Pseudo) :
    (returnPieces code block).flatMap Piece.code = insertBeforeReturn code block := by
  induction block with
  | nil => rfl
  | cons m rest ih =>
    rw [returnPieces, insertBeforeReturn_cons]
    split
    · rw [List.flatMap_cons, flatMap_plain, Piece.code, List.append_assoc]
      rfl
    · rw [List.flatMap_cons, ih]
      rfl

theorem mem_returnPieces (h : p ∈ returnPieces code block) :
    p.inst = p.op ∧ p.after = [] ∧ (p.before = [] ∨ p.before = code) ∧ (p.op.isReturn = false → p.before = []) := by
  induction block with
  | nil => cases h
  | cons m rest ih =>
    rw [returnPieces] at h
    split at h
    · next hm =>
      rcases List.mem_cons.mp h with rfl | h
      · exact ⟨rfl, rfl, .inr rfl, fun hr => absurd hm (by simp [hr])⟩
      · obtain ⟨q, -, rfl⟩ := List.mem_map.mp h
        exact ⟨rfl, rfl, .inl rfl, fun _ => rfl⟩
    · rcases List.mem_cons.mp h with rfl | h
      · exact ⟨rfl, rfl, .inl rfl, fun _ => rfl⟩
      · exact ih h

theorem before_returnPieces {k : Nat} (h : (returnPieces code block)[k]? = some p) (hp : p.op.isReturn = true)
    (hfirst : ∀ j < k, ∀ m, block[j]? = some m → m.isReturn = false) : p.before = code := by
  induction block generalizing k with
  | nil => cases h
  | cons m rest ih =>
    rw [returnPieces] at h
    split at h
    · next hm =>
      cases k with
      | zero =>
        cases h
        rfl
      | succ k =>
        rw [hfirst 0 (Nat.succ_pos k) m rfl] at hm
        cases hm
    · next hm =>
      cases k with
      | zero =>
        cases h
        exact absurd hp hm
      | succ k => exact ih h fun j hj m' hm' => hfirst (j + 1) (Nat.succ_lt_succ hj) m' hm'

theorem transparent_returnPieces (hcode : ∀ m ∈ code, m.isTerminator = false) (h : p ∈ returnPieces code block) :
    p.Transparent := by
  obtain ⟨hinst, hafter, hbefore, -⟩ := mem_returnPieces h
  refine ⟨by rw [hinst], by rw [hinst], fun m hm => ?_, by simp [hafter], fun _ => hafter⟩
  rcases hbefore with hnil | heq
  · rw [hnil] at hm
    cases hm
  · exact hcode m (heq ▸ hm)

theorem insertBeforeReturn_append {pre : List Pseudo} (h : ∀ m ∈ pre, m.isReturn = false) (rest : List Pseudo) :
    insertBeforeReturn code (pre ++ rest) = pre ++ insertBeforeReturn code rest := by
  induction pre with
  | nil => rfl
  | cons m pre ih =>
    rw [List.cons_append, insertBeforeReturn_cons, h m (by simp), ih fun q hq => h q (by simp [hq])]
    rfl

theorem mem_insertBeforeReturn (h : m ∈ insertBeforeReturn code block) : m ∈ code ∨ m ∈ block := by
  rw [← flatMap_code_returnPieces] at h
  obtain ⟨p, hp, hm⟩ := List.mem_flatMap.mp h
  obtain ⟨hinst, hafter, hbefore, -⟩ := mem_returnPieces hp
  rw [Piece.code, hafter, List.mem_append, List.mem_singleton] at hm
  rcases hm with hm | rfl
  · rcases hbefore with hnil | heq
    · rw [hnil] at hm
      cases hm
    · exact .inl (heq ▸ hm)
  · right
    rw [hinst, ← map_op_returnPieces code block]
    exact List.mem_map_of_mem hp

theorem Frame.prologue_frameOp (frame : Frame) (h : m ∈ frame.prologue) : m.isFrameOp = true := by
  simp only [prologue, List.mem_append, List.mem_map, List.mem_ite_nil_right, List.mem_singleton] at h
  rcases h with ((⟨-, rfl⟩ | ⟨r, -, rfl⟩) | ⟨-, rfl⟩) | ⟨-, rfl⟩ <;> rfl

theorem Frame.epilogue_frameOp (frame : Frame) (h : m ∈ frame.epilogue) : m.isFrameOp = true := by
  simp only [epilogue, List.mem_append, List.mem_map, List.mem_ite_nil_right, List.mem_singleton] at h
  rcases h with ((⟨-, rfl⟩ | ⟨-, rfl⟩) | ⟨r, -, rfl⟩) | ⟨-, rfl⟩ <;> rfl

theorem Pseudo.isTerminator_of_isFrameOp (h : m.isFrameOp = true) : m.isTerminator = false := by
  cases m <;> first | rfl | cases h

theorem Pseudo.isReturn_of_goes_on (h : m.passes = true ∨ ∃ c, m.target? = some c) : m.isReturn = false := by
  cases m with
  | ret rs => simp [Pseudo.passes, Pseudo.target?] at h
  | _ => rfl

end Frames

def Routine.entered (f : Routine) (frame : Frame) : Routine :=
  { f with blocks := match f.blocks with
      | [] => []
      | entry :: rest => (frame.prologue ++ entry) :: rest }

section WithFrame

variable {f g : Routine} {frame : Frame} {b : Nat}

/-- The way from there to the finished function. -/
theorem withFrame_joins (h : f.withFrame frame = .ok g) :
    Weave.Joins ((f.entered frame).blocks.map (returnPieces frame.epilogue)) (f.entered frame) g := by
  rw [Routine.withFrame, Frame.entryCode] at h
  split at h
  · cases h
  · cases h
    refine ⟨?_, ?_, fun row hrow p hp => ?_⟩
    · simp [map_op_returnPieces, Function.comp_def]
    · rw [List.map_map]
      exact List.map_congr_left fun block _ => (flatMap_code_returnPieces _ block).symm
    · obtain ⟨block, -, rfl⟩ := List.mem_map.mp hrow
      exact transparent_returnPieces (fun m hm => Pseudo.isTerminator_of_isFrameOp (frame.epilogue_frameOp hm)) hp

theorem entered_entry {entry : List Pseudo} (h : f.blocks[0]? = some entry) :
    (f.entered frame).blocks[0]? = some (frame.prologue ++ entry) := by
  rw [Routine.entered]
  cases hb : f.blocks with
  | nil =>
    rw [hb] at h
    cases h
  | cons first rest =>
    rw [hb] at h
    cases h
    rfl

/-- Behind the prologue stand the operations of the function. -/
theorem entered_op {k : Nat} {m : Pseudo} (h : opAt? (f.entered frame) b k = some m) :
    (b = 0 ∧ k < frame.prologue.length ∧ m ∈ frame.prologue) ∨ ∃ block ∈ f.blocks, m ∈ block := by
  rw [opAt?, Routine.entered] at h
  cases hb : f.blocks with
  | nil => simp [hb] at h
  | cons first rest =>
    cases b with
    | zero =>
      have h : (frame.prologue ++ first)[k]? = some m := by simpa [hb] using h
      rcases Nat.lt_or_ge k frame.prologue.length with hlt | hge
      · rw [List.getElem?_append_left hlt] at h
        exact .inl ⟨rfl, hlt, List.mem_of_getElem? h⟩
      · rw [List.getElem?_append_right hge] at h
        exact .inr ⟨first, by simp, List.mem_of_getElem? h⟩
    | succ b =>
      have h : (rest[b]?).bind (·[k]?) = some m := by simpa [hb] using h
      obtain ⟨block, hblock, hk⟩ := Option.bind_eq_some_iff.mp h
      exact .inr ⟨block, List.mem_cons_of_mem _ (List.mem_of_getElem? hblock), List.mem_of_getElem? hk⟩

/-- A way to a return has the epilogue as its last part, and none of it before. -/
theorem walk_to_return (h : f.withFrame frame = .ok g) {done' : List (Nat × Nat)} {k' : Nat} {rs : List Register}
    (hwalk' : g.Walk done' b k') (hret : opAt? g b k' = some (.ret rs)) :
    ∃ done k, (f.entered frame).Walk done b k ∧ opAt? (f.entered frame) b k = some (.ret rs) ∧
      g.run done' = (f.entered frame).run done ++ frame.epilogue := by
  have hjoins := withFrame_joins h
  obtain ⟨done, k, j, hwalk, rfl, rfl, hj⟩ := hwalk'.unweave hjoins
  obtain ⟨p, hp, hlt⟩ := hjoins.piece?_of_opAt? hret hj
  rw [hjoins.opAt?_result hp hlt] at hret
  obtain ⟨rfl, hinst⟩ := (hjoins.transparent_of hp).isTerminator_code hret rfl
  obtain ⟨row, hrow, hk⟩ := Weave.piece?_some hp
  rw [List.getElem?_map, Option.map_eq_some_iff] at hrow
  obtain ⟨block, hblock, rfl⟩ := hrow
  have hop : p.op = .ret rs := by rw [hinst, (mem_returnPieces (List.mem_of_getElem? hk)).1]
  refine ⟨done, k, hwalk, by rw [hjoins.opAt?_source, hp, Option.map_some, hop], ?_⟩
  have hbefore : p.before = frame.epilogue := by
    refine before_returnPieces hk (by rw [hop]; rfl) fun i hi m hm => ?_
    obtain ⟨m', hm', hpass⟩ := hwalk.passed hi
    rw [opAt?, hblock, Option.bind_some, hm] at hm'
    cases hm'
    exact Pseudo.isReturn_of_goes_on (.inl hpass)
  -- an operation that control went on from is no return, so its piece is the operation alone
  have hcode : ∀ q ∈ Weave.pieces _ done, q.code = [q.op] := fun q hq => by
    obtain ⟨at', hat, hq⟩ := List.mem_filterMap.mp hq
    obtain ⟨m, hm, hgone⟩ := hwalk.of_mem_done hat
    rw [hjoins.opAt?_source, hq] at hm
    cases hm
    obtain ⟨row, hrow, hk⟩ := Weave.piece?_some hq
    rw [List.getElem?_map, Option.map_eq_some_iff] at hrow
    obtain ⟨block, -, rfl⟩ := hrow
    obtain ⟨hinst, hafter, -, hnone⟩ := mem_returnPieces (List.mem_of_getElem? hk)
    rw [Piece.code, hnone (Pseudo.isReturn_of_goes_on hgone), hafter, hinst]
    rfl
  rw [Routine.run_append, hjoins.run_trail, hjoins.run_trail_take hp (Nat.le_of_lt hlt), hjoins.run_source]
  congr 1
  · rw [List.flatMap_def, List.map_congr_left hcode, ← List.flatMap_def, ← List.map_eq_flatMap]
  · rw [Piece.code, List.take_left, hbefore]

end WithFrame

/-- A way through a function from its entry to a return: prologue and epilogue are executed once,
first and last, what stands at the entry to take the arguments is executed once, and the stack
pointer is in the end what it was. -/
structure Activation (regs : List Register) (frame : Frame) (g : Routine) (done : List (Nat × Nat)) : Prop where
  run : ∃ body, g.run done = frame.prologue ++ body ++ frame.epilogue ∧ ∀ m ∈ body, m.isFrameOp = false
  args : ∃ pre rest, g.blocks[0]? = some (frame.prologue ++ pre ++ rest) ∧ ArgMoves regs pre ∧
    ∀ i < (frame.prologue ++ pre).length, done.count (0, i) = 1
  sp : ∀ s, (∃ t, StackRun frame (g.run done) s t) ∧ ∀ t, StackRun frame (g.run done) s t → t.sp = s.sp

section Activation

variable {f g : Routine} {frame : Frame} {regs : List Register} {varSized : Bool} {done : List (Nat × Nat)} {b k : Nat}
  {rs : List Register}

variable (hf : f.Bodied regs frame.frameBase varSized)

include hf

theorem Routine.Bodied.back {m : Pseudo} (hm : opAt? (f.entered frame) b k = some m) : m.target? ≠ some 0 := by
  intro htarget
  rcases entered_op hm with ⟨-, -, hpro⟩ | ⟨block, hblock, hmem⟩
  · have := Pseudo.isTerminator_of_isFrameOp (frame.prologue_frameOp hpro)
    rw [Pseudo.isTerminator_of_target? htarget] at this
    cases this
  · exact (hf.ops block hblock m hmem).target 0 htarget rfl

/-- Before the epilogue control ran through the prologue and then through the body. -/
theorem Routine.Bodied.run_entered (hwalk : (f.entered frame).Walk done b k)
    (hret : opAt? (f.entered frame) b k = some (.ret rs)) :
    ∃ body, (f.entered frame).run done = frame.prologue ++ body ∧
      ∀ m ∈ body, BodyOp (· ≠ 0) frame.frameBase varSized m := by
  obtain ⟨pre, rest, hentry, -⟩ := hf.opens
  have hb : (f.entered frame).blocks[0]? = some (frame.prologue ++ (pre ++ rest)) := entered_entry hentry
  obtain ⟨tail, rfl, htail⟩ := hwalk.entered_once hb
    (fun m hm => Pseudo.isTerminator_of_isFrameOp (frame.prologue_frameOp hm)) (fun _ _ _ hm => hf.back hm) hret rfl
  refine ⟨(f.entered frame).run tail, by rw [Routine.run_append, Routine.run_entryPlaces hb], fun m hm => ?_⟩
  obtain ⟨⟨b', k'⟩, hat, hop⟩ := List.mem_filterMap.mp hm
  rcases entered_op hop with ⟨h0, hlt, -⟩ | ⟨block, hblock, hmem⟩
  · exact absurd (htail _ hat h0) (Nat.not_le.mpr hlt)
  · exact hf.ops block hblock m hmem

/-- The code that takes the arguments is executed once. -/
theorem Routine.Bodied.args_once (h : f.withFrame frame = .ok g) (hwalk : g.Walk done b k)
    (hret : opAt? g b k = some (.ret rs)) :
    ∃ pre rest, g.blocks[0]? = some (frame.prologue ++ pre ++ rest) ∧ ArgMoves regs pre ∧
      ∀ i < (frame.prologue ++ pre).length, done.count (0, i) = 1 := by
  have hresult : g.blocks = (f.entered frame).blocks.map (insertBeforeReturn frame.epilogue) := by
    rw [(withFrame_joins h).result, List.map_map]
    exact List.map_congr_left fun block _ => flatMap_code_returnPieces _ block
  obtain ⟨pre, rest, hentry, hpre⟩ := hf.opens
  have hstraight : ∀ m ∈ frame.prologue ++ pre, m.isTerminator = false := fun m hm => by
    rcases List.mem_append.mp hm with hm | hm
    · exact Pseudo.isTerminator_of_isFrameOp (frame.prologue_frameOp hm)
    · exact hpre.straight m hm
  have hb : g.blocks[0]? = some (frame.prologue ++ pre ++ insertBeforeReturn frame.epilogue rest) := by
    have hreturn : ∀ m ∈ frame.prologue ++ pre, m.isReturn = false := fun m hm =>
      Pseudo.isReturn_of_goes_on (.inl (Pseudo.passes_of_not_isTerminator (hstraight m hm)))
    rw [hresult, List.getElem?_map, entered_entry hentry, ← List.append_assoc, Option.map_some,
      insertBeforeReturn_append hreturn]
  have hback : ∀ b k m, opAt? g b k = some m → m.target? ≠ some 0 := fun b k m hm => by
    obtain ⟨block, hblock, hk⟩ := opAt?_some hm
    rw [hresult, List.getElem?_map, Option.map_eq_some_iff] at hblock
    obtain ⟨old, hold, rfl⟩ := hblock
    rcases mem_insertBeforeReturn (List.mem_of_getElem? hk) with hm | hm
    · intro htarget
      have := Pseudo.isTerminator_of_isFrameOp (frame.epilogue_frameOp hm)
      rw [Pseudo.isTerminator_of_target? htarget] at this
      cases this
    · obtain ⟨j, hj⟩ := List.mem_iff_getElem?.mp hm
      exact hf.back (b := b) (k := j) (by rw [opAt?, hold, Option.bind_some, hj])
  obtain ⟨tail, rfl, htail⟩ := hwalk.entered_once hb hstraight hback hret rfl
  refine ⟨pre, _, hb, hpre, fun i hi => ?_⟩
  have hnone : (0, i) ∉ tail := fun hmem => Nat.not_le.mpr hi (htail _ hmem rfl)
  rw [List.count_append, count_entryPlaces hi, List.count_eq_zero.mpr hnone]

/-- What every way to a return of such a function does, once it has its frame. -/
theorem Routine.Bodied.activation (hcall : frame.reservedCallFrame = !varSized)
    (hvar : varSized = true → frame.frameBase = true) (h : f.withFrame frame = .ok g) (hwalk : g.Walk done b k)
    (hret : opAt? g b k = some (.ret rs)) : Activation regs frame g done := by
  obtain ⟨done', k', hwalk', hret', hrun⟩ := walk_to_return h hwalk hret
  obtain ⟨body, hbody, hops⟩ := hf.run_entered hwalk' hret'
  rw [hbody] at hrun
  refine ⟨⟨body, hrun, fun m hm => (hops m hm).frameOp⟩, hf.args_once h hwalk hret,
    fun s => ⟨StackRun.total _ _ _, fun t ht => ?_⟩⟩
  rw [hrun] at ht
  obtain ⟨c, ht, hepilogue⟩ := ht.append_inv
  obtain ⟨a, hprologue, hmiddle⟩ := ht.append_inv
  obtain ⟨hdown, hnote⟩ := hprologue.prologue
  obtain ⟨hbase, hsp⟩ := hmiddle.body hops hcall hvar
  rw [hepilogue.epilogue]
  cases hb : frame.frameBase with
  | true =>
    rw [if_pos rfl, hbase hb, hnote hb, hdown, BitVec.sub_add_cancel]
  | false =>
    rw [if_neg (by simp), hsp hb, hdown, BitVec.sub_add_cancel]

end Activation

def Allocation.Allocated.framed (a : Allocation.Allocated) : Checked (Frame × Routine) := do
  let routine ← a.routine.assignAll a.assignment.regMap
  let frame ← { a.plan with calleeSaved := a.assignment.calleeSaved }.finalize
  return (frame, ← routine.withFrame frame)

def Ir.Function.framed (fn : Ir.Function) : Checked (Frame × Routine) := do
  let selected ← fn.selectOperations
  let allocated ←
    (Allocation.allocate Allocation.scanning selected.plan.reserved selected.routine selected.plan).result
  allocated.framed

theorem Routine.assign_of_assignAll {f g : Routine} {map : RegMap} (h : f.assignAll map = .ok g) :
    g = f.assign map := by
  rw [assignAll] at h
  split at h
  · cases h
  · exact (Except.ok.inj h).symm

/-- The stages that a function goes through until its frame is in place. -/
theorem framed_eq_ok {fn : Ir.Function} {frame : Frame} {g : Routine} (h : fn.framed = .ok (frame, g)) :
    ∃ sel al, fn.selectOperations = .ok sel ∧
      (Allocation.allocate Allocation.scanning sel.plan.reserved sel.routine sel.plan).result = .ok al ∧
      FramePlan.finalize { al.plan with calleeSaved := al.assignment.calleeSaved } = .ok frame ∧
      (al.routine.assign al.assignment.regMap).withFrame frame = .ok g := by
  obtain ⟨sel, hsel, h⟩ := bind_eq_ok.mp h
  obtain ⟨al, hal, h⟩ := bind_eq_ok.mp h
  obtain ⟨routine, hassign, h⟩ := bind_eq_ok.mp h
  obtain ⟨frame', hframe, h⟩ := bind_eq_ok.mp h
  obtain ⟨g', hwith, h⟩ := bind_eq_ok.mp h
  cases h
  obtain rfl := Routine.assign_of_assignAll hassign
  exact ⟨sel, al, hsel, hal, hframe, hwith⟩

/-- Compiling is framing and then assembling. -/
theorem compile_eq_framed (fn : Ir.Function) (options : Options) :
    fn.compile options = fn.framed >>= fun framed => Prod.fst <$> framed.2.assemble framed.1 options := by
  rw [Ir.Function.compile, Ir.Function.compileWith, Ir.Function.framed]
  cases fn.selectOperations with
  | error e => rfl
  | ok selected =>
    simp only [ok_bind]
    cases (Allocation.allocate Allocation.scanning selected.plan.reserved selected.routine selected.plan).result with
    | error e => rfl
    | ok allocated =>
      change allocated.assemble options = _
      rw [Allocation.Allocated.assemble, ok_bind, Allocation.Allocated.framed]
      cases allocated.routine.assignAll allocated.assignment.regMap with
      | error e => rfl
      | ok routine =>
        simp only [ok_bind]
        cases FramePlan.finalize { allocated.plan with calleeSaved := allocated.assignment.calleeSaved } with
        | error e => rfl
        | ok frame =>
          simp only [ok_bind]
          cases routine.withFrame frame with
          | error e => rfl
          | ok g =>
            simp only [ok_bind, pure_bind]
            cases g.assemble frame options <;> rfl

theorem assemble_eq_ok {frame : Frame} {g : Routine} {options : Options} {e : EncodedFunction} {removed : Nat}
    (h : g.assemble frame options = .ok (e, removed)) : ∃ t, g.expand frame options.folding = .ok t ∧
      (if options.cleanup then t.clean else t).finish options.relaxing frame.stackSize = .ok e := by
  obtain ⟨t, hexpand, h⟩ := bind_eq_ok.mp h
  obtain ⟨e', hfinish, h⟩ := bind_eq_ok.mp h
  cases h
  exact ⟨t, hexpand, hfinish⟩

/-- A compiled function is the layout of the code of its framed form, cleaned up if asked for. -/
theorem compile_eq_ok {fn : Ir.Function} {options : Options} {e : EncodedFunction} (h : fn.compile options = .ok e) :
    ∃ frame g t, fn.framed = .ok (frame, g) ∧ g.expand frame options.folding = .ok t ∧
      (if options.cleanup then t.clean else t).finish options.relaxing frame.stackSize = .ok e := by
  rw [compile_eq_framed] at h
  obtain ⟨⟨frame, g⟩, hframed, h⟩ := bind_eq_ok.mp h
  cases hassemble : g.assemble frame options with
  | error err =>
    rw [hassemble] at h
    cases h
  | ok encoded =>
    rw [hassemble] at h
    cases h
    obtain ⟨t, hexpand, hfinish⟩ := assemble_eq_ok hassemble
    exact ⟨frame, g, t, hframed, hexpand, hfinish⟩

theorem finalize_flags {plan : FramePlan} {frame : Frame} (h : plan.finalize = .ok frame) :
    frame.frameBase = plan.needsFrameBase ∧ frame.reservedCallFrame = !plan.hasVarSized := by
  obtain rfl := FramePlan.finalize_eq_ok h
  exact ⟨rfl, rfl⟩

/-- If no block that is kept leads back to the entry, every call that returns has run prologue,
epilogue and the moves of its arguments once, and leaves the stack pointer as it was. -/
theorem framed_activation {fn : Ir.Function} {frame : Frame} {g : Routine} (h : fn.framed = .ok (frame, g))
    (hentry : ∀ b ∈ Selection.reachable fn, 0 ∉ Selection.successorsOf fn b) {done : List (Nat × Nat)} {b k : Nat}
    {rs : List Register} (hwalk : g.Walk done b k) (hret : opAt? g b k = some (.ret rs)) :
    Activation fn.argRegs frame g done := by
  obtain ⟨selected, allocated, hselect, hrounds, hframe, hwith⟩ := framed_eq_ok h
  obtain ⟨hbodied, hscan, hdone, hplan⟩ :=
    Allocation.rounds_bodied (Selection.selectOperations_bodied hentry hselect) hrounds
  have hassigned := hbodied.assign hscan hdone
  obtain ⟨hbase, hcall⟩ := finalize_flags hframe
  have hneeds : frame.frameBase = selected.plan.reserved.frameBase := by
    rw [hbase, hplan]
    rfl
  rw [← hneeds] at hassigned
  refine hassigned.activation ?_ (fun hvar => ?_) hwith hwalk hret
  · rw [hcall, hplan]
  · rw [hneeds]
    simp [FramePlan.reserved, FramePlan.needsFrameBase, hvar]

section Countdown

open Allocation

variable {map : List (Nat × Register)} {ivs : List Interval} {plan : FramePlan} {r : Routine} {fn : Ir.Function}

/-- Where nothing is spilled, registers are assigned by a computation without a table. -/
theorem allocate_of_scan (ht : targetsExist r = true) (hi : intervals r = ivs)
    (hview : viewScan r plan.reserved ivs = .ok (map, [])) :
    (allocate scanning plan.reserved r plan).result = .ok ⟨⟨map, calleeSavedIn map, []⟩, r, plan⟩ := by
  have hscan : linearScan r plan.reserved = .ok ⟨map, calleeSavedIn map, []⟩ := by
    rw [linearScan_eq plan.reserved ht hi, hview]
    rfl
  change (rounds scanning plan.reserved (r.numVRegs + 2) 0 r plan).result = _
  rw [rounds, show scanning 0 r plan.reserved = _ from hscan]
  rfl

/-- A frame from a scan that spills nothing. -/
theorem framed_of_scan {framed : Frame × Routine} (hsel : fn.selectOperations = .ok ⟨r, plan⟩)
    (ht : targetsExist r = true) (hi : intervals r = ivs) (hview : viewScan r plan.reserved ivs = .ok (map, []))
    (hframed : Allocated.framed ⟨⟨map, calleeSavedIn map, []⟩, r, plan⟩ = .ok framed) : fn.framed = .ok framed := by
  rw [Ir.Function.framed, hsel, ok_bind, allocate_of_scan ht hi hview, ok_bind]
  exact hframed

theorem compile_of_framed {frame : Frame} (hframed : fn.framed = .ok (frame, r)) (options : Options)
    (p : EncodedFunction → Bool) (hp : (Prod.fst <$> r.assemble frame options).toOption.any p = true) :
    ∃ e, fn.compile options = .ok e ∧ p e = true := by
  rw [compile_eq_framed, hframed, ok_bind]
  generalize Prod.fst <$> r.assemble frame options = x at hp
  cases x with
  | error => cases hp
  | ok e => exact ⟨e, rfl, hp⟩

/-- Counts its parameter down to zero, in a loop behind the entry. -/
def countdown : Ir.Function where
  name := "countdown"
  params := [0]
  returns := [.i32]
  blocks := [⟨[], .jump 1⟩, ⟨[.binary .sub 0 0 (.imm 1#32)], .branchCc .ne 0 (.imm 0#32) 1 2⟩, ⟨[], .ret [0]⟩]
  valueTypes := [.i32]

private def countdownOps : Routine where
  name := "countdown"
  blocks := [[.copy (.virt 0) (.phys (.general 0)), .jump 1],
    [.aluImm .add (.virt 0) (.virt 0) (-1#32), .brCc (.int .ne (.virt 0) (.imm 0#32)) 1, .jump 2],
    [.copy (.phys (.general 0)) (.virt 0), .ret [.general 0]]]
  classes := [.gpr]
  liveIns := [.general 0]

def countdownCode : Routine :=
  { countdownOps with
    blocks := [[.spAdjust (-4#32), .copy (.phys (.general 0)) (.phys (.general 0)), .jump 1],
      [.aluImm .add (.phys (.general 0)) (.phys (.general 0)) (-1#32),
        .brCc (.int .ne (.phys (.general 0)) (.imm 0#32)) 1, .jump 2],
      [.copy (.phys (.general 0)) (.phys (.general 0)), .spAdjust 4#32, .ret [.general 0]]] }

def wordFrame : Frame :=
  { callFrameSize := 4, stackSize := 4, frameBase := false, reservedCallFrame := true, saved := [] }

private theorem framed_countdown : countdown.framed = .ok (wordFrame, countdownCode) := by
  have hi : intervals countdownOps = [⟨0, ⟨1, 10⟩⟩] := intervals_eq (by decide +kernel) (by decide +kernel)
  have hview : viewScan countdownOps .base [⟨0, ⟨1, 10⟩⟩] = .ok ([(0, .general 0)], []) := by decide +kernel
  exact framed_of_scan rfl (by decide +kernel) hi hview (by decide +kernel)

def countdownWay : List (Nat × Nat) :=
  [(0, 0), (0, 1), (0, 2), (1, 0), (1, 1), (1, 0), (1, 1), (1, 2), (2, 0), (2, 1)]

private theorem walk_countdown : countdownCode.Walk countdownWay 2 2 := by
  have hloop := ((((Routine.Walk.entry (f := countdownCode)).pass rfl rfl).pass rfl rfl).jump rfl rfl).pass rfl rfl
  exact (((((hloop.jump rfl rfl).pass rfl rfl).pass rfl rfl).jump rfl rfl).pass rfl rfl).pass rfl rfl

theorem framed_activation_countdown :
    countdown.framed = .ok (wordFrame, countdownCode) ∧
    (∀ b ∈ Selection.reachable countdown, 0 ∉ Selection.successorsOf countdown b) ∧
    countdownCode.Walk countdownWay 2 2 ∧ opAt? countdownCode 2 2 = some (.ret [.general 0]) ∧
    Activation countdown.argRegs wordFrame countdownCode countdownWay :=
  have hentry : ∀ b ∈ Selection.reachable countdown, 0 ∉ Selection.successorsOf countdown b := by decide
  ⟨framed_countdown, hentry, walk_countdown, rfl, framed_activation framed_countdown hentry walk_countdown rfl⟩

/-- The same with the loop at the entry itself. -/
def tightCountdown : Ir.Function :=
  { countdown with
    blocks := [⟨[.binary .sub 0 0 (.imm 1#32)], .branchCc .ne 0 (.imm 0#32) 0 1⟩, ⟨[], .ret [0]⟩] }

private def tightOps : Routine :=
  { countdownOps with
    blocks := [[.copy (.virt 0) (.phys (.general 0)), .aluImm .add (.virt 0) (.virt 0) (-1#32),
        .brCc (.int .ne (.virt 0) (.imm 0#32)) 0, .jump 1],
      [.copy (.phys (.general 0)) (.virt 0), .ret [.general 0]]] }

def tightCode : Routine :=
  { countdownOps with
    blocks := [[.spAdjust (-4#32), .copy (.phys (.general 1)) (.phys (.general 0)),
        .aluImm .add (.phys (.general 1)) (.phys (.general 1)) (-1#32),
        .brCc (.int .ne (.phys (.general 1)) (.imm 0#32)) 0, .jump 1],
      [.copy (.phys (.general 0)) (.phys (.general 1)), .spAdjust 4#32, .ret [.general 0]]] }

def tightWay : List (Nat × Nat) :=
  [(0, 0), (0, 1), (0, 2), (0, 3), (0, 0), (0, 1), (0, 2), (0, 3), (0, 4), (1, 0), (1, 1)]

/-- A loop at the entry runs the prologue in every round, and takes the argument again. -/
theorem tightCountdown_not_activation :
    tightCountdown.framed = .ok (wordFrame, tightCode) ∧ tightCode.Walk tightWay 1 2 ∧
    opAt? tightCode 1 2 = some (.ret [.general 0]) ∧
    (tightCode.run tightWay).count (.spAdjust (-4#32)) = 2 ∧
    ¬ Activation tightCountdown.argRegs wordFrame tightCode tightWay := by
  have hi : intervals tightOps = [⟨0, ⟨1, 8⟩⟩] := intervals_eq (by decide +kernel) (by decide +kernel)
  have hview : viewScan tightOps .base [⟨0, ⟨1, 8⟩⟩] = .ok ([(0, .general 1)], []) := by decide +kernel
  have hround := ((((Routine.Walk.entry (f := tightCode)).pass rfl rfl).pass rfl rfl).pass rfl rfl).jump rfl rfl
  have hleave := ((((hround.pass rfl rfl).pass rfl rfl).pass rfl rfl).pass rfl rfl).jump rfl rfl
  refine ⟨framed_of_scan (r := tightOps) rfl (by decide +kernel) hi hview (by decide +kernel),
    (hleave.pass rfl rfl).pass rfl rfl, rfl, by decide +kernel, fun h => ?_⟩
  obtain ⟨pre, rest, -, -, honce⟩ := h.args
  have hone := honce 0 (Nat.lt_of_lt_of_le (by decide : 0 < wordFrame.prologue.length) (by simp))
  revert hone
  decide

end Countdown

end DirectPage
