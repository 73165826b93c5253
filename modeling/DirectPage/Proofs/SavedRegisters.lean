import DirectPage.Proofs.ClosedFlow
import DirectPage.Proofs.FrameCode

/-! Functions give back the registers that a call has to keep.

Registers outside the allocator's reach are never written. Of the others, those that a call keeps are pushed at entry
if they are given to anything, and each return stands behind the code that pops them. -/
namespace DirectPage

open Allocation Expansion

section Registers

variable {r : Register}

/-- A register that is given to anything and that calls keep is reported by the scan. -/
theorem linearScan_calleeSaved {f : Routine} {reserved : Reserved} {a : Assignment}
    (h : linearScan f reserved = .ok a) {v : Nat} (hr : a.regMap v = some r) (hc : r ∈ calleeSaved) :
    r ∈ a.calleeSaved := by
  rw [linearScan] at h
  split at h
  · cases h
  obtain ⟨st, -, h⟩ := bind_eq_ok.mp h
  cases h
  obtain ⟨before, after, hmap, -⟩ := List.lookup_eq_some_iff.mp hr
  have hmem : (v, r) ∈ st.map := by
    rw [show st.map = _ from hmap]
    simp
  rw [calleeSavedIn, Register.sorted, (List.mergeSort_perm _ _).mem_iff, distinct, List.mem_eraseDups, List.mem_filter]
  exact ⟨List.mem_map.mpr ⟨(v, r), hmem, rfl⟩, by simpa [Register.isCalleeSaved] using hc⟩

theorem finalize_saved {plan : FramePlan} {frame : Frame} (h : plan.finalize = .ok frame) :
    frame.saved = savedRegisters frame.frameBase plan.calleeSaved := by
  obtain rfl := FramePlan.finalize_eq_ok h
  rfl

theorem Pseudo.dst?_of_result? {m : Pseudo} (hm : m.isFrameOp = false) (h : m.result? = some r) :
    m.dst? = some (.phys r) := by
  unfold Pseudo.result? at h
  split at h
  · cases hm
  · cases hm
  · obtain ⟨q, hq, hr⟩ := Option.bind_eq_some_iff.mp h
    cases q with
    | phys p => rw [hq, Option.some.inj hr]
    | virt v => cases hr

theorem contains_of_pinned (reserved : Reserved) : ∀ r ∈ pinned, reserved.contains r = true := by
  obtain ⟨_ | _⟩ := reserved <;> decide

private theorem rank_of_kept : ∀ r ∈ pinned ++ calleeSaved, 16 ≤ r.rank := by decide

private theorem rank_of_argument : ∀ r ∈ intArgRegs, r.rank < 16 := by decide

end Registers

theorem pinned_disjoint_calleeSaved : ∀ r ∈ pinned, r ∉ calleeSaved := by decide

namespace Frame

variable {frame : Frame} {used : List Register} (h : frame.saved = savedRegisters frame.frameBase used) {r : Register}
include h

theorem frameBase_notMem_saved (hbase : frame.frameBase = true) : DirectPage.frameBase ∉ frame.saved := by
  rw [h, hbase]
  exact fun hmem => (mem_savedRegisters.mp hmem).2.2 rfl rfl

theorem pushed_calleeSaved (hr : r ∈ frame.pushed) : r ∈ calleeSaved := by
  rcases List.mem_append.mp hr with hr | hr
  · rw [List.mem_ite_nil_right, List.mem_singleton] at hr
    exact hr.2 ▸ by decide
  · rw [h] at hr
    exact (mem_savedRegisters.mp hr).2.1

theorem slot?_isSome_of_pushed (hr : r ∈ frame.pushed) : r.slot?.isSome = true := by
  have hall : ∀ r ∈ calleeSaved, r.slot?.isSome = true := by decide
  exact hall r (pushed_calleeSaved h hr)

theorem emits_prologue : frame.Emits frame.prologue frame.opening := by
  rw [prologue_eq, opening, List.append_assoc]
  refine (emits_each (fun r d hd folding b s => ?_) fun r => slot?_isSome_of_pushed h).append
    ((emits_spAdjust fun hsize => by rw [hsize]; rfl).append ?_)
  · change (push r >>= _) >>= _ = _
    rw [push, Register.slot, hd]
    rfl
  · split <;> exact fun _ _ _ => rfl

theorem emits_epilogue : frame.Emits frame.epilogue frame.closing := by
  rw [epilogue_eq, closing, pushedSlots, ← List.filterMap_reverse]
  refine (Emits.append ?_ (emits_spAdjust fun hsize => by rw [hsize])).append
    (emits_each (fun r d hd folding b s => ?_) fun r hr => slot?_isSome_of_pushed h (List.mem_reverse.mp hr))
  · split <;> exact fun _ _ _ => rfl
  · change (pop r >>= _) >>= _ = _
    rw [pop, Register.slot, hd]
    rfl

theorem nodup_pushedSlots : frame.pushedSlots.Nodup := by
  have hsaved : frame.saved.Nodup := h ▸ nodup_savedRegisters _ _
  have hpushed : frame.pushed.Nodup := by
    rw [pushed]
    split
    · next hbase => exact List.nodup_cons.mpr ⟨frameBase_notMem_saved h hbase, hsaved⟩
    · exact hsaved
  exact hpushed.filterMap fun r q d hr hq => Register.slot?_inj hr hq

end Frame

namespace Framing

variable {f : Ir.Function} {sel : Selected} {al : Allocated} {frame : Frame} {g : Routine}
  (h : Framing f sel al frame g) {r : Register} {v : Nat}
include h

theorem frameBase_eq : frame.frameBase = sel.plan.reserved.frameBase := by
  rw [(finalize_flags h.finalized).1, h.plan]
  rfl

theorem saved_eq : frame.saved = savedRegisters frame.frameBase al.assignment.calleeSaved :=
  finalize_saved h.finalized

theorem not_reserved (hr : al.assignment.regMap v = some r) : sel.plan.reserved.contains r = false := by
  obtain ⟨_, -, -, hres⟩ := linearScan_mapped h.scanned h.unspilled hr
  exact hres

theorem regMap_ne_frameBase (hbase : frame.frameBase = true) (v : Nat) : al.assignment.regMap v ≠ some frameBase := by
  intro hv
  have hres := h.not_reserved hv
  rw [h.frameBase_eq] at hbase
  simp [Reserved.contains, frameBase, hbase] at hres

/-- A register that is given to anything is pushed if a call has to keep it. -/
theorem mem_saved (hr : al.assignment.regMap v = some r) (hc : r ∈ calleeSaved) : r ∈ frame.saved := by
  rw [h.saved_eq]
  refine mem_savedRegisters.mpr ⟨linearScan_calleeSaved h.scanned hr hc, hc, fun hbase => ?_⟩
  rintro rfl
  exact h.regMap_ne_frameBase hbase v hr

theorem spares {S : Scope} {m : Pseudo} (hm : m.Assigned S al.assignment.regMap) {d : UInt8}
    (hd : Writable m.result? d) : frame.Spares d := by
  have hlow {q : Register} (hrank : q.rank < 16) : q ∉ pinned ∧ (q ∈ calleeSaved → q ∈ frame.saved) :=
    ⟨fun hmem => absurd (rank_of_kept q (List.mem_append_left _ hmem)) (Nat.not_le.mpr hrank),
      fun hmem => absurd (rank_of_kept q (List.mem_append_right _ hmem)) (Nat.not_le.mpr hrank)⟩
  rcases hd with hd | ⟨r, n, hres, hn, rfl⟩
  · exact ⟨scratch, hd, by decide, fun hc => absurd hc (by decide)⟩
  · cases r with
    | general k =>
      obtain ⟨hk, rfl⟩ := of_ite_ok hn
      refine ⟨.general k, if_pos hk, ?_⟩
      rcases hm.result _ (Pseudo.dst?_of_result? hm.frameOp hres) with harg | ⟨v, hv⟩
      · rcases List.mem_append.mp harg with harg | harg
        · exact hlow (rank_of_argument _ harg)
        · simp [floatArgRegs] at harg
      · refine ⟨fun hmem => ?_, h.mem_saved hv⟩
        have hnot := h.not_reserved hv
        rw [contains_of_pinned _ _ hmem] at hnot
        cases hnot
    | float k =>
      obtain ⟨hk, rfl⟩ := of_ite_ok hn
      exact ⟨.general k, if_pos (UInt8.lt_trans hk (by decide)), hlow hk⟩
    | _ => cases hn

end Framing

section Code

variable {frame : Frame} {g : Routine} {s t : Stream}

structure Stream.Bracketed (frame : Frame) (g : Routine) (s : Stream) : Prop where
  code : frame.Brackets s.instructions.toList
  blocks : s.blocks = g.blocks.length
  pool : s.pool = g.pool

variable {P : Instruction → Prop} {T : Nat → Prop}

theorem Stream.Grown.toList_eq (h : s.Grown P T t) :
    t.instructions.toList = s.instructions.toList ++ t.instructions.toList.drop s.instructions.size := by
  have htake : t.instructions.toList.take s.instructions.size = s.instructions.toList := by
    refine List.ext_getElem? fun k => ?_
    rw [List.getElem?_take, Array.getElem?_toList, Array.getElem?_toList]
    split
    · next hk => exact h.old k hk
    · next hk => rw [Array.getElem?_eq_none (Nat.le_of_not_lt hk)]
  rw [← htake, List.take_append_drop]

theorem Frame.permits_branch (frame : Frame) {i : Instruction} (h : i.relaxed?.isSome = true) : frame.Permits i := by
  cases i with
  | branch | bra => exact ⟨by rintro ⟨⟩, by rintro _ ⟨⟩⟩
  | _ => cases h

/-- What grows by instructions of the body stays bracketed. -/
theorem Stream.Bracketed.grown (hs : s.Bracketed frame g) (h : s.Grown P T t) (hP : ∀ i, P i → frame.Permits i) :
    t.Bracketed frame g where
  code := by
    rw [h.toList_eq]
    refine .body hs.code fun i hi => ?_
    obtain ⟨k, hk⟩ := List.mem_iff_getElem?.mp hi
    rw [List.getElem?_drop, Array.getElem?_toList] at hk
    rcases h.new _ i (Nat.le_add_right _ _) hk with hi | ⟨hshort, -⟩
    · exact hP i hi
    · exact frame.permits_branch hshort
  blocks := h.blocks.trans hs.blocks
  pool := h.pool.trans hs.pool

end Code

namespace Framing

variable {f : Ir.Function} {sel : Selected} {al : Allocated} {frame : Frame} {g : Routine} {folding : Bool} {b : Nat}
  {s t : Stream} (h : Framing f sel al frame g)
include h

/-- An operation of the body adds instructions of the body. -/
private theorem bracketed_inst (hs : s.Bracketed frame g) {m : Pseudo}
    (hm : m.Assigned (al.routine.scope al.plan) al.assignment.regMap) (hreturn : m.isReturn = false)
    (htarget : ∀ c, m.target? = some c → c < g.blocks.length) (he : expandInst frame folding b s m = .ok t) :
    t.Bracketed frame g := by
  have hlead : ∀ c, m.target? = some c → True ∧ c < s.blocks := fun c hc => ⟨trivial, hs.blocks ▸ htarget c hc⟩
  have hpool : (al.routine.scope al.plan).constants = s.pool.length := by
    rw [hs.pool, ← h.pool_eq]
    rfl
  have hgrown := (gives_expandInst hm.toResolved (h.length_blocks.trans hs.blocks.symm) hlead hpool
    h.length_objects).each t he
  refine hs.grown hgrown ?_
  rintro i (hi | ⟨hret, -⟩)
  · refine ⟨?_, fun d hd => h.spares hm (hi.slot d hd)⟩
    rintro rfl
    exact hi.inside rfl
  · rw [hreturn] at hret
    cases hret

private theorem bracketed_ops {ops : List Pseudo} (hs : s.Bracketed frame g)
    (hops : ∀ m ∈ ops, m.Assigned (al.routine.scope al.plan) al.assignment.regMap)
    (hreturn : ∀ m ∈ ops, m.isReturn = false)
    (htarget : ∀ m ∈ ops, ∀ c, m.target? = some c → c < g.blocks.length)
    (he : ops.foldlM (expandInst frame folding b) s = .ok t) : t.Bracketed frame g := by
  induction ops generalizing s with
  | nil =>
    cases he
    exact hs
  | cons m ops ih =>
    obtain ⟨u, hu, he⟩ := bind_eq_ok.mp he
    have hbracketed := h.bracketed_inst hs (hops m (by simp)) (hreturn m (by simp)) (htarget m (by simp)) hu
    exact ih hbracketed (fun n hn => hops n (by simp [hn])) (fun n hn => hreturn n (by simp [hn]))
      (fun n hn => htarget n (by simp [hn])) he

private theorem bracketed_block {block : List Pseudo} (hs : s.Bracketed frame g)
    (hblock : block ∈ (al.routine.assign al.assignment.regMap).blocks)
    (he : (insertBeforeReturn frame.epilogue block).foldlM (expandInst frame folding b) s = .ok t) :
    t.Bracketed frame g := by
  have hops := h.ops block hblock
  have htarget : ∀ m ∈ block, ∀ c, m.target? = some c → c < g.blocks.length := fun m hm c hc =>
    (h.shaped.withFrame h.framed).lt c (h.shaped.leads block hblock m hm c hc)
  rcases h.shaped.ended_or_nil hblock with ⟨body, last, rfl, hbody, -⟩ | rfl
  · have hreturn : ∀ m ∈ body, m.isReturn = false := fun m hm => Pseudo.isReturn_of_goes_on (.inl (hbody m hm))
    rw [insertBeforeReturn_append hreturn, List.foldlM_append] at he
    obtain ⟨u, hu, he⟩ := bind_eq_ok.mp he
    have hu := h.bracketed_ops hs (fun m hm => hops m (by simp [hm])) hreturn
      (fun m hm => htarget m (by simp [hm])) hu
    rw [insertBeforeReturn_cons] at he
    cases hlast : last.isReturn with
    | true =>
      rw [hlast, if_pos rfl, List.foldlM_append] at he
      rw [(Frame.emits_epilogue h.saved_eq).expands, ok_bind] at he
      cases last with
      | ret results =>
        cases he
        refine ⟨?_, hu.blocks, hu.pool⟩
        rw [Stream.toList_emitAll, Stream.toList_emitAll, List.append_assoc]
        exact .leave hu.code
      | _ => cases hlast
    | false =>
      rw [hlast, if_neg Bool.false_ne_true] at he
      obtain ⟨v, hv, he⟩ := bind_eq_ok.mp he
      cases he
      exact h.bracketed_inst hu (hops last (by simp)) hlast (htarget last (by simp)) hv
  · cases he
    exact hs

private theorem bracketed_blocks {blocks : List (List Pseudo)} (hs : s.Bracketed frame g)
    (hblocks : ∀ block ∈ blocks, block ∈ (al.routine.assign al.assignment.regMap).blocks)
    (he : expandBlocks frame folding s b (blocks.map (insertBeforeReturn frame.epilogue)) = .ok t) :
    t.Bracketed frame g := by
  induction blocks generalizing b s with
  | nil =>
    cases he
    exact hs
  | cons block blocks ih =>
    obtain ⟨u, hu, he⟩ := bind_eq_ok.mp he
    have hu := h.bracketed_block (s := s.define b) ⟨hs.code, hs.blocks, hs.pool⟩ (hblocks block (by simp))
      (foldlM_of_expandBlock hu)
    exact ih hu (fun block hblock => hblocks block (by simp [hblock])) he

/-- Expansion puts a function between the opening and the closing instructions of its frame. -/
theorem brackets (he : g.expand frame folding = .ok t) : frame.Brackets t.instructions.toList := by
  obtain ⟨entry, rest, hold, hnew⟩ := h.blocks_eq
  rw [Routine.expand, hnew] at he
  obtain ⟨u, hu, he⟩ := bind_eq_ok.mp he
  replace hu := foldlM_of_expandBlock hu
  rw [List.foldlM_append, (Frame.emits_prologue h.saved_eq).expands, ok_bind] at hu
  have hu := h.bracketed_block ⟨?_, by rw [hnew]; rfl, rfl⟩ (by simp [hold]) hu
  · exact (h.bracketed_blocks hu (fun block hblock => by simp [hold, hblock]) he).code
  · rw [Stream.toList_emitAll]
    exact .enter

end Framing

/-- Code that gives back the registers of its caller. It starts by pushing registers, each return stands behind the
code that pops them in the reverse order, and what it writes is no pinned register, nor one that a call has to keep
unless that is pushed. A frame base is set at entry and given back last. -/
structure Frame.Preserves (frame : Frame) (is : List Instruction) : Prop where
  opens : frame.opening <+: is
  closes : ∀ k, is[k]? = some (.implied .rts) → frame.closing <:+ is.take k
  once : frame.pushedSlots.Nodup
  writes : ∀ i ∈ is, ∀ d, i.destSlot? = some d →
    ∃ r : Register, r.slot? = some d ∧ r ∉ pinned ∧ (r ∈ calleeSaved → r ∈ frame.pushed)
  base : frame.frameBase = true → ∀ k i, is[k]? = some i → i.destSlot? = some frameBaseSlot → frame.SetsBase is k i

theorem Framing.preserves {f : Ir.Function} {sel : Selected} {al : Allocated} {frame : Frame} {g : Routine}
    (h : Framing f sel al frame g) {is : List Instruction} (his : frame.Brackets is) : frame.Preserves is where
  opens := his.opens
  closes _ := his.closes
  once := Frame.nodup_pushedSlots h.saved_eq
  writes i hi d hd := by
    rcases his.writes hi hd with ⟨r, hr, hpinned, hsaved⟩ | hpushed
    · exact ⟨r, hr, hpinned, fun hc => List.mem_append_right _ (hsaved hc)⟩
    · obtain ⟨r, hmem, hr⟩ := List.mem_filterMap.mp hpushed
      exact ⟨r, hr, fun hpinned => pinned_disjoint_calleeSaved r hpinned (Frame.pushed_calleeSaved h.saved_eq hmem),
        fun _ => hmem⟩
  base hbase _ _ := his.base hbase (Frame.frameBase_notMem_saved h.saved_eq hbase)

/-- Compiled functions give back the registers of their callers, and where they have a frame base it is left to the
frame. -/
theorem compile_preserves {f : Ir.Function} {options : Options} {e : EncodedFunction}
    (h : f.compile options = .ok e) :
    ∃ sel al frame, f.selectOperations = .ok sel ∧
      (allocate scanning sel.plan.reserved sel.routine sel.plan).result = .ok al ∧
      FramePlan.finalize { al.plan with calleeSaved := al.assignment.calleeSaved } = .ok frame ∧
      frame.Preserves e.instructions ∧
      (frame.frameBase = true → frameBase ∉ frame.saved ∧ ∀ v, al.assignment.regMap v ≠ some frameBase) := by
  obtain ⟨sel, al, frame, g, t, hframing, hexpand, hclosed, hlaid⟩ := compile_laidOut h
  have hcode := hframing.brackets hexpand
  have he : frame.Brackets e.instructions := by
    split at hlaid
    · exact (hcode.clean hclosed.wellFormed).laidOut hclosed.wellFormed.clean hlaid
    · exact hcode.laidOut hclosed.wellFormed hlaid
  exact ⟨sel, al, frame, hframing.selected, hframing.allocated, hframing.finalized, hframing.preserves he,
    fun hbase => ⟨Frame.frameBase_notMem_saved hframing.saved_eq hbase, hframing.regMap_ne_frameBase hbase⟩⟩

section Keeper

/-- Gives its frame address to another function, and then returns its parameter. -/
def keeper : Ir.Function where
  name := "keeper"
  params := [0]
  returns := [.i32]
  blocks := [⟨[.frameAddr 1 0, .call (.direct "visit") [1] none []], .ret [0]⟩]
  valueTypes := [.i32, .ptr]

private def keeperOps : Routine where
  name := "keeper"
  blocks := [[.copy (.virt 0) (.phys (.general 0)), .copy (.virt 1) (.phys frameBase), .callStackDown 4,
    .copy (.phys (.general 0)) (.virt 1), .call (.symbol "visit") [.general 0] callClobbered, .callStackUp 4,
    .copy (.phys (.general 0)) (.virt 0), .ret [.general 0]]]
  classes := [.gpr, .gpr]
  liveIns := [.general 0]

private def keeperFrame : Frame :=
  { callFrameSize := 4, stackSize := 4, frameBase := true, reservedCallFrame := true, saved := [.general 16] }

private def keeperCode : Routine :=
  { keeperOps with
    blocks := [[.push frameBase, .push (.general 16), .spAdjust (-4#32), .setFrameBase,
      .copy (.phys (.general 16)) (.phys (.general 0)), .copy (.phys (.general 0)) (.phys frameBase),
      .callStackDown 4, .copy (.phys (.general 0)) (.phys (.general 0)),
      .call (.symbol "visit") [.general 0] callClobbered, .callStackUp 4,
      .copy (.phys (.general 0)) (.phys (.general 16)), .restoreSp, .spAdjust 4#32, .pop (.general 16),
      .pop frameBase, .ret [.general 0]]] }

private theorem compile_keeper : ∃ e, keeper.compile {} = .ok e ∧
    e.instructions[11]? = some (.direct .stxDp frameBaseSlot) ∧ e.instructions[13]? = some (.direct .staDp 64) := by
  have hi : intervals keeperOps = [⟨0, ⟨1, 12⟩⟩, ⟨1, ⟨3, 6⟩⟩] := intervals_eq (by decide +kernel) (by decide +kernel)
  have hview : viewScan keeperOps ⟨true⟩ [⟨0, ⟨1, 12⟩⟩, ⟨1, ⟨3, 6⟩⟩] =
      .ok ([(1, .general 0), (0, .general 16)], []) := by decide +kernel
  have hframed : keeper.framed = .ok (keeperFrame, keeperCode) :=
    framed_of_scan rfl (by decide +kernel) hi hview (by decide +kernel)
  obtain ⟨e, he, hasm⟩ := compile_of_framed hframed {} (fun e =>
    e.instructions[11]? == some (.direct .stxDp frameBaseSlot) && e.instructions[13]? == some (.direct .staDp 64))
    (by decide +kernel)
  rw [Bool.and_eq_true, beq_iff_eq, beq_iff_eq] at hasm
  exact ⟨e, he, hasm⟩

/-- The frame base is set, and a register that calls keep is written. -/
theorem compile_preserves_keeper : ∃ e, keeper.compile {} = .ok e ∧
    e.instructions[11]? = some (.direct .stxDp frameBaseSlot) ∧ e.instructions[13]? = some (.direct .staDp 64) ∧
    ∃ sel al frame, keeper.selectOperations = .ok sel ∧
      (allocate scanning sel.plan.reserved sel.routine sel.plan).result = .ok al ∧
      FramePlan.finalize { al.plan with calleeSaved := al.assignment.calleeSaved } = .ok frame ∧
      frame.Preserves e.instructions ∧
      (frame.frameBase = true → frameBase ∉ frame.saved ∧ ∀ v, al.assignment.regMap v ≠ some frameBase) := by
  obtain ⟨e, he, hbase, hkept⟩ := compile_keeper
  exact ⟨e, he, hbase, hkept, compile_preserves he⟩

end Keeper

end DirectPage
