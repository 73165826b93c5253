import DirectPage.Proofs.ClosedFlow

/-! Compilation of a function that passed its checks does not fail for a reference.

Checks look at references once. Selection, spilling and assignment only refer to what there is, so expansion finds all
that operations name; and every label that a branch or an operand waits for is bound, so layout finds its offset. -/
namespace DirectPage

namespace Stream

def Located (s : Stream) (l : Nat) : Prop :=
  ∃ d, s.labels[l]? = some (some d) ∧ ∀ p, d = .instr p → p ≤ s.instructions.size

section Offsets

variable {s : Stream} {relaxing : Bool}

theorem Located.grounded {l : Nat} (h : s.Located l) : Grounded True (s.labelOffset s.offsets l) := by
  obtain ⟨d, hd, hplace⟩ := h
  rw [labelOffset, hd]
  cases d with
  | instr p =>
    change Grounded True (orFail _ s.offsets[p]?)
    rw [offsets_getElem?, if_pos (hplace p rfl)]
    exact .ok _
  | pool offset => exact .ok _

theorem Located.grounded_displacement {l : Nat} (h : s.Located l) (k : Nat) (i : Instruction) :
    Grounded True (s.displacement s.offsets k l i) :=
  h.grounded.bind fun _ _ => .ok _

private theorem grounded_relaxBranch {instrs : Array Instruction} {f : Nat × Nat} (h : s.Located f.2) :
    Grounded True (s.relaxBranch relaxing s.offsets instrs f) := by
  obtain ⟨k, l⟩ := f
  rw [relaxBranch]
  split
  · exact .aborted
  · refine (h.grounded_displacement k _).bind fun d _ => ?_
    split
    · exact .failed rfl
    · split
      · exact .ok _
      · split
        · split
          · exact .ok _
          · exact .failed rfl
        · exact .failed rfl

/-- Layout with long forms has the labels of layout without. -/
private theorem Located.relaxed {t : Stream} {l : Nat} (h : s.Located l)
    (ht : t = { s with instructions := t.instructions }) (hsize : t.instructions.size = s.instructions.size) :
    t.Located l := by
  obtain ⟨d, hd, hplace⟩ := h
  exact ⟨d, by rw [ht]; exact hd, fun p hp => by rw [hsize]; exact hplace p hp⟩

private theorem grounded_relaxRound (h : ∀ f ∈ s.fixups, s.Located f.2) : Grounded True (s.relaxRound relaxing) :=
  (Grounded.foldlM fun _ f hf => grounded_relaxBranch (h f hf)).bind fun _ _ => .ok _

theorem grounded_relax (h : ∀ f ∈ s.fixups, s.Located f.2) : Grounded True (s.relax relaxing) := by
  fun_induction relax s relaxing with
  | case1 s e he => exact he ▸ grounded_relaxRound h
  | case2 s next hround _ ih =>
    obtain ⟨hnext, hlen⟩ := relaxRound_spec hround
    refine ih fun f hf => (h f ?_).relaxed hnext hlen.1
    rw [hnext] at hf
    exact hf
  | case3 s next hround _ => exact .ok _

private theorem grounded_resolveOperand {i : Instruction} (h : ∀ l, i.operand? = some (.label l) → s.Located l) :
    Grounded True (s.resolveOperand s.offsets i) := by
  rw [resolveOperand]
  split
  · exact .ok _
  · next imm himm =>
    refine .bind ?_ fun _ _ => .ok _
    cases imm with
    | label l => exact (h l himm).grounded.bind fun _ _ => .ok _
    | _ => exact .ok _

private theorem operand?_withBranchOffset (d : Word) (i : Instruction) :
    (i.withBranchOffset d).operand? = i.operand? := by
  cases i <;> rfl

/-- Layout does not fail for a label, if those that are waited for are bound. -/
theorem grounded_finish (hfixups : ∀ f ∈ s.fixups, s.Located f.2)
    (hoperands : ∀ (k : Nat) i l, s.instructions[k]? = some i → i.operand? = some (.label l) → s.Located l)
    (stackSize : Nat) : Grounded True (s.finish relaxing stackSize) := by
  refine (grounded_relax hfixups).bind fun t hrelax => ?_
  obtain ⟨ht, ⟨hsize, hforms⟩, -⟩ := relax_spec hrelax
  have hlabels : t.fixups = s.fixups := by rw [ht]
  -- Long forms and displacements leave label operands as they are.
  have hlong : ∀ (k : Nat) i l, t.instructions[k]? = some i → i.operand? = some (.label l) → t.Located l := by
    intro k i l hi hop
    have hlt : k < s.instructions.size := hsize ▸ (Array.getElem?_eq_some_iff.mp hi).1
    obtain ⟨new, hnew, hform⟩ := hforms k _ (Array.getElem?_eq_getElem hlt)
    cases hi.symm.trans hnew
    rcases hform with hform | ⟨hrelaxed, -⟩
    · exact (hoperands k _ l (Array.getElem?_eq_getElem hlt) (hform ▸ hop)).relaxed ht hsize
    · have hnone : i.operand? = none := by
        cases hold : s.instructions[k] <;> rw [hold] at hrelaxed <;> cases hrelaxed <;> rfl
      rw [hnone] at hop
      cases hop
  refine .bind (.foldlM fun instrs f hf => ?_) fun mids hmids => ?_
  · obtain ⟨k, l⟩ := f
    rw [setDisplacement]
    split
    · exact .aborted
    · rw [hlabels] at hf
      exact (((hfixups _ hf).relaxed ht hsize).grounded_displacement k _).bind fun _ _ => .ok _
  have hmids : ∀ (k : Nat) i l, mids[k]? = some i → i.operand? = some (.label l) → t.Located l := by
    refine foldlM_keeps (fun instrs : Array Instruction => ∀ (k : Nat) i l, instrs[k]? = some i →
      i.operand? = some (.label l) → t.Located l) (fun instrs f next hinstrs hstep k i l hi hop => ?_) hlong hmids
    obtain ⟨j, label⟩ := f
    rw [setDisplacement] at hstep
    split at hstep
    · cases hstep
    · next old hold =>
      obtain ⟨d, -, hstep⟩ := bind_eq_ok.mp hstep
      cases hstep
      rw [Array.getElem?_setIfInBounds] at hi
      split at hi
      · split at hi
        · cases hi
          rw [operand?_withBranchOffset] at hop
          exact hinstrs j old l hold hop
        · cases hi
      · exact hinstrs k i l hi hop
  refine .bind (.mapM fun i hi => grounded_resolveOperand fun l hop => ?_) fun _ _ => .ok _
  obtain ⟨k, hk⟩ := List.mem_iff_getElem?.mp hi
  exact hmids k i l (by simpa using hk) hop

end Offsets

theorem Closed.grounded_finish {s : Stream} (h : s.Closed) (relaxing : Bool) (stackSize : Nat) :
    Grounded True (s.finish relaxing stackSize) := by
  have hlocated {l : Nat} {d : LabelDef} (hd : s.labels[l]? = some (some d)) : s.Located l :=
    ⟨d, hd, fun p hp => h.wellFormed.labels_le l p (hp ▸ hd)⟩
  refine Stream.grounded_finish (fun f hf => ?_) (fun k i l hi hop => ?_) stackSize
  · obtain ⟨⟨p, -, hp⟩, -⟩ := h.leads f.1 f.2 hf
    exact hlocated hp
  · obtain ⟨d, hd⟩ := h.operands k i l hi hop
    exact hlocated hd

end Stream

/-- Compilation of a function that passed its checks fails for no value, block, slot, constant, frame object or label
that is not there, and for no register without class, without assignment or outside the first sixteen. -/
theorem compile_grounded {f : Ir.Function} (h : f.verify = .ok ()) (options : Options) (e : Error)
    (he : f.compile options = .error (.error e)) : e.isDangling = false := by
  suffices hg : Grounded True (f.compile options) from hg.isDangling he
  rw [compile_eq_framed]
  refine (grounded_framed h).bind fun ⟨frame, g⟩ hframed => .map _ ?_
  obtain ⟨sel, al, hframing⟩ := framing_of_framed hframed
  refine ((hframing.gives_expand options.folding).grounded trivial).bind fun s hs => ?_
  have hclosed := ((hframing.gives_expand options.folding).each s hs).cleaned options.cleanup
  exact (hclosed.grounded_finish options.relaxing frame.stackSize).bind fun _ _ => .ok _

section FarSlot

open Allocation

/-- Returns the address of a slot that lies behind one of two gigabytes. -/
def farSlot : Ir.Function where
  name := "farSlot"
  returns := [.ptr]
  blocks := [⟨[.slotAddr 0 1], .ret [0]⟩]
  valueTypes := [.ptr]
  slots := [⟨2147483648, 4⟩, ⟨4, 4⟩]

private def farSlotOps : Routine where
  name := "farSlot"
  blocks := [[.frameAddr (.virt 0) 1 0#32, .copy (.phys (.general 0)) (.virt 0), .ret [.general 0]]]
  classes := [.gpr]

private def farSlotCode : Routine :=
  { farSlotOps with
    blocks := [[.spAdjust (-2147483656#32), .frameAddr (.phys (.general 0)) 1 0#32,
      .copy (.phys (.general 0)) (.phys (.general 0)), .spAdjust 2147483656#32, .ret [.general 0]]] }

private def farSlotFrame : Frame :=
  { places := [.local 0, .local 2147483648], callFrameSize := 4, stackSize := 2147483656, frameBase := false,
    reservedCallFrame := true, saved := [] }

/-- The slot is known, but no instruction reaches it. -/
theorem compile_grounded_farSlot : farSlot.verify = .ok () ∧
    farSlot.compile {} = .error (.error (.unsupportedFeature (.frameOffset 2147483652))) ∧
    (Error.unsupportedFeature (.frameOffset 2147483652)).isDangling = false := by
  have hverify : farSlot.verify = .ok () := by decide +kernel
  have hsel : farSlot.selectOperations = .ok ⟨farSlotOps, { objects := [.local 2147483648 4, .local 4 4] }⟩ :=
    by decide +kernel
  have hi : intervals farSlotOps = [⟨0, ⟨1, 2⟩⟩] := intervals_eq (by decide +kernel) (by decide +kernel)
  have hview : viewScan farSlotOps .base [⟨0, ⟨1, 2⟩⟩] = .ok ([(0, .general 0)], []) := by decide +kernel
  have hframed : farSlot.framed = .ok (farSlotFrame, farSlotCode) :=
    framed_of_scan hsel (by decide +kernel) hi hview (by decide +kernel)
  have hcompile : farSlot.compile {} = .error (.error (.unsupportedFeature (.frameOffset 2147483652))) := by
    rw [compile_eq_framed, hframed, ok_bind]
    rfl
  exact ⟨hverify, hcompile, compile_grounded hverify {} _ hcompile⟩

end FarSlot

end DirectPage
