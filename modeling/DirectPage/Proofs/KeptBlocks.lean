import DirectPage.Proofs.Activation

/-! Blocks that are kept.

Blocks which cannot be reached are left empty. The others end with an operation that control does not pass, and lead
only to each other: so it is behind selection, and spill code, assignment, prologue and epilogue leave it so. -/
namespace DirectPage

namespace Selection

variable {f : Ir.Function}

section Reach

variable {seen frontier : List Nat} {b : Nat}

structure Search (f : Ir.Function) (seen frontier : List Nat) : Prop where
  nodup : (seen ++ frontier).Nodup
  inside : ∀ b ∈ seen ++ frontier, b < f.blocks.length
  closed : ∀ b ∈ seen, ∀ c ∈ successorsOf f b, c ∈ seen ++ frontier

theorem Search.length_le (h : Search f seen frontier) : seen.length + frontier.length ≤ f.blocks.length := by
  have hsub : seen ++ frontier ⊆ List.range f.blocks.length := fun b hb => List.mem_range.mpr (h.inside b hb)
  simpa using (List.subperm_of_subset h.nodup hsub).length_le

theorem Search.advance (hsucc : ∀ b, ∀ c ∈ successorsOf f b, c < f.blocks.length) (h : Search f seen frontier) :
    Search f (seen ++ frontier) (newIn (seen ++ frontier) (frontier.flatMap (successorsOf f))) where
  nodup := List.nodup_append.mpr ⟨h.nodup, nodup_newIn, fun a ha b hb he => (mem_newIn.mp hb).2 (he ▸ ha)⟩
  inside b hb := by
    rcases List.mem_append.mp hb with hb | hb
    · exact h.inside b hb
    · obtain ⟨a, -, hab⟩ := List.mem_flatMap.mp (mem_newIn.mp hb).1
      exact hsucc a b hab
  closed b hb c hc := by
    by_cases hseen : c ∈ seen ++ frontier
    · exact List.mem_append_left _ hseen
    · rcases List.mem_append.mp hb with hb | hb
      · exact absurd (h.closed b hb c hc) hseen
      · exact List.mem_append_right _ (mem_newIn.mpr ⟨List.mem_flatMap.mpr ⟨b, hb, hc⟩, hseen⟩)

/-- Every round finds another block, so as many as there are blocks suffice. -/
theorem Search.reach (h : Search f seen frontier) (steps : Nat)
    (hsucc : ∀ b, ∀ c ∈ successorsOf f b, c < f.blocks.length) (hsteps : f.blocks.length ≤ steps + seen.length) :
    Search f (reach f steps seen frontier) [] := by
  induction steps generalizing seen frontier with
  | zero =>
    have hlen := h.length_le
    obtain rfl : frontier = [] := List.eq_nil_of_length_eq_zero (by omega)
    simpa [Selection.reach] using h
  | succ steps ih =>
    rw [Selection.reach]
    split
    · next hempty =>
      rw [List.isEmpty_iff.mp hempty] at h
      exact h
    · next hfound =>
      have hpos : 0 < frontier.length := List.length_pos_iff.mpr fun hnil => hfound (List.isEmpty_iff.mpr hnil)
      refine ih (h.advance hsucc) ?_
      rw [List.length_append]
      omega

end Reach

/-- The blocks that are kept are blocks of the function, and lead only to each other. -/
theorem reachable_closed (hv : f.Verified) :
    (∀ b ∈ reachable f, b < f.blocks.length) ∧ ∀ b ∈ reachable f, ∀ c ∈ successorsOf f b, c ∈ reachable f := by
  have hsucc : ∀ b, ∀ c ∈ successorsOf f b, c < f.blocks.length := by
    intro b c hc
    rw [successorsOf] at hc
    split at hc
    · next block hb => exact (hv.ends block (List.mem_of_getElem? hb)).targets c hc
    · cases hc
  have hstart : ∀ b ∈ 0 :: addressTaken f, b < f.blocks.length := by
    intro b hb
    rcases List.mem_cons.mp hb with rfl | hb
    · exact List.length_pos_iff.mpr hv.blocks
    · obtain ⟨block, hblock, hb⟩ := List.mem_flatMap.mp hb
      obtain ⟨i, hi, hb⟩ := List.mem_filterMap.mp hb
      split at hb
      · cases hb
        have hfault := (hv.insts block hblock _ hi).faultless
        simpa [Ir.Function.instFault?] using hfault
      · cases hb
  have hsearch : Search f [] (newIn [] (0 :: addressTaken f)) :=
    ⟨nodup_newIn, fun b hb => hstart b (mem_newIn.mp hb).1, by simp⟩
  have hdone := hsearch.reach f.blocks.length hsucc (by simp)
  exact ⟨fun b hb => hdone.inside b (by simpa [reachable] using hb),
    fun b hb c hc => by simpa [reachable] using hdone.closed b hb c hc⟩

end Selection

/-- A function in which the blocks of a list end and lead only to each other, and the others are empty. -/
structure Routine.Shaped (live : List Nat) (g : Routine) : Prop where
  entry : 0 ∈ live
  ended : ∀ b ∈ live, ∃ block, g.blocks[b]? = some block ∧ Ended block
  empty : ∀ (b : Nat) block, g.blocks[b]? = some block → b ∉ live → block = []
  leads : ∀ block ∈ g.blocks, ∀ m ∈ block, ∀ c, m.target? = some c → c ∈ live

namespace Routine.Shaped

variable {live : List Nat} {f g : Routine}

theorem lt (h : g.Shaped live) : ∀ b ∈ live, b < g.blocks.length := by
  intro b hb
  obtain ⟨block, hblock, -⟩ := h.ended b hb
  exact (List.getElem?_eq_some_iff.mp hblock).1

theorem ended_or_nil (h : g.Shaped live) {block : List Pseudo} (hblock : block ∈ g.blocks) :
    Ended block ∨ block = [] := by
  obtain ⟨b, hb⟩ := List.mem_iff_getElem?.mp hblock
  by_cases hlive : b ∈ live
  · obtain ⟨block', hb', hended⟩ := h.ended b hlive
    rw [Option.some.inj (hb.symm.trans hb')]
    exact .inl hended
  · exact .inr (h.empty b block hb hlive)

private theorem ended_row {row : List Piece} (hrow : ∀ p ∈ row, p.Transparent) (h : Ended (row.map Piece.op)) :
    Ended (row.flatMap Piece.code) := by
  obtain ⟨body, last, hsplit, hbody, hlast⟩ := h
  obtain ⟨ps, qs, rfl, rfl, hq⟩ := List.map_eq_append_iff.mp hsplit
  obtain ⟨p, rfl, rfl⟩ := List.map_eq_singleton_iff.mp hq
  have hp : p.Transparent := hrow p (by simp)
  have hend : p.op.isTerminator = true := by
    cases ht : p.op.isTerminator with
    | true => rfl
    | false => rw [Pseudo.passes_of_not_isTerminator ht] at hlast; cases hlast
  have hcode {q : Piece} (hq : q.Transparent) (hpass : q.op.passes = true) : ∀ m ∈ q.code, m.passes = true := by
    intro m hm
    rw [Piece.code, List.mem_append, List.mem_cons] at hm
    rcases hm with hm | rfl | hm
    · exact Pseudo.passes_of_not_isTerminator (hq.before m hm)
    · rw [hq.passes, hpass]
    · exact Pseudo.passes_of_not_isTerminator (hq.after m hm)
  refine ⟨ps.flatMap Piece.code ++ p.before, p.inst, ?_, fun m hm => ?_, hp.passes.trans hlast⟩
  · rw [List.flatMap_append, List.flatMap_singleton, Piece.code, hp.last hend, List.append_assoc]
  · rcases List.mem_append.mp hm with hm | hm
    · obtain ⟨q, hq, hm⟩ := List.mem_flatMap.mp hm
      exact hcode (hrow q (by simp [hq])) (hbody q.op (List.mem_map_of_mem hq)) m hm
    · exact Pseudo.passes_of_not_isTerminator (hp.before m hm)

/-- Straight code around operations changes no shape. -/
theorem weave {w : Weave} (hw : w.Joins f g) (h : f.Shaped live) : g.Shaped live where
  entry := h.entry
  ended b hb := by
    obtain ⟨block, hblock, hended⟩ := h.ended b hb
    rw [hw.source, List.getElem?_map, Option.map_eq_some_iff] at hblock
    obtain ⟨row, hrow, rfl⟩ := hblock
    refine ⟨row.flatMap Piece.code, by rw [hw.result, List.getElem?_map, hrow]; rfl, ?_⟩
    exact ended_row (hw.transparent row (List.mem_of_getElem? hrow)) hended
  empty b block hb hlive := by
    rw [hw.result, List.getElem?_map, Option.map_eq_some_iff] at hb
    obtain ⟨row, hrow, rfl⟩ := hb
    have hnil := h.empty b (row.map Piece.op) (by rw [hw.source, List.getElem?_map, hrow]; rfl) hlive
    rw [List.map_eq_nil_iff.mp hnil]
    rfl
  leads block hblock m hm c hc := by
    rw [hw.result] at hblock
    obtain ⟨row, hrow, rfl⟩ := List.mem_map.mp hblock
    obtain ⟨p, hp, hm⟩ := List.mem_flatMap.mp hm
    have htransparent := hw.transparent row hrow p hp
    have hend := Pseudo.isTerminator_of_target? hc
    rw [Piece.code, List.mem_append, List.mem_cons] at hm
    rcases hm with hm | rfl | hm
    · rw [htransparent.before m hm] at hend
      cases hend
    · rw [htransparent.target] at hc
      refine h.leads (row.map Piece.op) ?_ p.op (List.mem_map_of_mem hp) c hc
      rw [hw.source]
      exact List.mem_map_of_mem hrow
    · rw [htransparent.after m hm] at hend
      cases hend

theorem assign (h : f.Shaped live) (map : RegMap) : (f.assign map).Shaped live where
  entry := h.entry
  ended b hb := by
    obtain ⟨_, hblock, body, last, rfl, hbody, hlast⟩ := h.ended b hb
    refine ⟨_, by rw [Routine.assign, List.getElem?_map, hblock]; rfl, body.map fun m => m.mapRegs map.apply,
      last.mapRegs map.apply, by simp, fun m hm => ?_, ?_⟩
    · obtain ⟨old, hold, rfl⟩ := List.mem_map.mp hm
      rw [Pseudo.mapRegs_eq_rename, Pseudo.passes_rename, hbody old hold]
    · rw [Pseudo.mapRegs_eq_rename, Pseudo.passes_rename, hlast]
  empty b block hb hlive := by
    rw [Routine.assign, List.getElem?_map, Option.map_eq_some_iff] at hb
    obtain ⟨old, hold, rfl⟩ := hb
    rw [h.empty b old hold hlive]
    rfl
  leads block hblock m hm c hc := by
    obtain ⟨old, hold, rfl⟩ := List.mem_map.mp hblock
    obtain ⟨op, hop, rfl⟩ := List.mem_map.mp hm
    rw [Pseudo.mapRegs_eq_rename, Pseudo.target?_rename] at hc
    exact h.leads old hold op hop c hc

/-- The prologue stands before the entry, and the epilogue before returns. -/
theorem withFrame {frame : Frame} (h : f.Shaped live) (hw : f.withFrame frame = .ok g) : g.Shaped live := by
  have hpass {m : Pseudo} (hm : m ∈ frame.prologue) : m.isTerminator = false :=
    Pseudo.isTerminator_of_isFrameOp (frame.prologue_frameOp hm)
  refine weave (withFrame_joins hw) ?_
  obtain ⟨entry, hentry, -⟩ := h.ended 0 h.entry
  obtain ⟨rest, hrest⟩ : ∃ rest, f.blocks = entry :: rest := by
    cases hb : f.blocks with
    | nil => rw [hb] at hentry; cases hentry
    | cons first rest => rw [hb] at hentry; cases hentry; exact ⟨rest, rfl⟩
  have hblocks : (f.entered frame).blocks = (frame.prologue ++ entry) :: rest := by rw [Routine.entered, hrest]
  refine ⟨h.entry, fun b hb => ?_, fun b block hblock hlive => ?_, fun block hblock m hm c hc => ?_⟩
  · obtain ⟨block, hblock, body, last, hsplit, hbody, hlast⟩ := h.ended b hb
    rw [hrest] at hblock
    rw [hblocks]
    cases b with
    | zero =>
      cases hblock
      refine ⟨_, rfl, frame.prologue ++ body, last, by rw [hsplit, List.append_assoc], fun m hm => ?_, hlast⟩
      rcases List.mem_append.mp hm with hm | hm
      · exact Pseudo.passes_of_not_isTerminator (hpass hm)
      · exact hbody m hm
    | succ b => exact ⟨block, hblock, body, last, hsplit, hbody, hlast⟩
  · rw [hblocks] at hblock
    cases b with
    | zero => exact absurd h.entry hlive
    | succ b => exact h.empty (b + 1) block (by rw [hrest]; exact hblock) hlive
  · rw [hblocks] at hblock
    rcases List.mem_cons.mp hblock with rfl | hblock
    · rcases List.mem_append.mp hm with hm | hm
      · have hend := Pseudo.isTerminator_of_target? hc
        rw [hpass hm] at hend
        cases hend
      · exact h.leads entry (by rw [hrest]; simp) m hm c hc
    · exact h.leads block (by rw [hrest]; simp [hblock]) m hm c hc

end Routine.Shaped

/-- Selection keeps the blocks that can be reached. -/
theorem Selection.selectOperations_shaped {f : Ir.Function} {sel : Selected} (h : f.selectOperations = .ok sel) :
    sel.routine.Shaped (reachable f) := by
  obtain ⟨_, hverify, -⟩ := bind_eq_ok.mp h
  obtain ⟨hinside, hclosed⟩ := reachable_closed (Ir.Function.verified_of_verify hverify)
  obtain ⟨hlen, hblocks⟩ := selectOperations_inScope h
  have hbody := selectOperations_body hclosed h
  refine ⟨zero_mem_reachable f, fun b hb => ?_, fun b block hb => (hblocks b block hb).2.1,
    fun block hblock m hm => (hbody block hblock m hm).target⟩
  have hlt : b < sel.routine.blocks.length := by rw [hlen]; exact hinside b hb
  exact ⟨_, List.getElem?_eq_getElem hlt, (hblocks b _ (List.getElem?_eq_getElem hlt)).1 hb⟩

end DirectPage
