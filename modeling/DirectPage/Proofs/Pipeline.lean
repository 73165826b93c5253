import DirectPage.Proofs.Activation

/-! What compilation carries through from selection to machine code: the name of a function, its
constants, and the objects of its frame. -/
namespace DirectPage

namespace Allocation

variable {f : Routine} {plan plan' : FramePlan}

theorem addSlots_grows {vs : List Nat} {slots : List SpillSlot} {result : Checked (List SpillSlot)}
    (h : addSlots f vs slots plan = (result, plan')) : plan.Grows plan' := by
  obtain ⟨sizes, rfl⟩ := addSlots_steps h
  exact plan.steps_grows _

/-- Spill code adds to the frame, and keeps name and constants. -/
theorem insertSpillCode_kept {g : Routine} {vs : List Nat} (h : insertSpillCode f plan vs = (.ok g, plan')) :
    g.name = f.name ∧ g.pool = f.pool ∧ plan.Grows plan' ∧ plan'.vararg = plan.vararg := by
  obtain ⟨slots, rows, hadd, hinto⟩ := insertSpillCode_inv h
  obtain ⟨hname, -, -, -, hpool, -⟩ := Routine.mk.inj hinto.grown.rest
  refine ⟨hname, hpool, addSlots_grows hadd, ?_⟩
  rw [addSlots_plan hadd]

/-- Rounds add to the frame, and keep name and constants. -/
theorem rounds_kept {alloc : Allocator} {reserved : Reserved} {left attempts : Nat}
    {al : Allocated} (h : (rounds alloc reserved left attempts f plan).result = .ok al) :
    al.routine.name = f.name ∧ al.routine.pool = f.pool ∧ plan.Grows al.plan ∧ al.plan.vararg = plan.vararg := by
  refine (rounds_keeps (P := fun g p => g.name = f.name ∧ g.pool = f.pool ∧ plan.Grows p ∧ p.vararg = plan.vararg)
    (fun g p vs g' p' hg hinsert => ?_) ⟨rfl, rfl, .refl _, rfl⟩ h).1
  obtain ⟨hname, hpool, hgrows, hvararg⟩ := hg
  obtain ⟨hname', hpool', hgrows', hvararg'⟩ := insertSpillCode_kept hinsert
  exact ⟨hname'.trans hname, hpool'.trans hpool, hgrows.trans hgrows', hvararg'.trans hvararg⟩

end Allocation

variable {fn : Ir.Function} {s : Stream} {e : EncodedFunction}

/-- The frame comes from that of selection with more objects. -/
theorem framed_kept {frame : Frame} {g : Routine} (h : fn.framed = .ok (frame, g)) :
    ∃ selected plan, fn.selectOperations = .ok selected ∧ g.name = selected.routine.name ∧
      g.pool = selected.routine.pool ∧ selected.plan.Grows plan ∧ plan.vararg = selected.plan.vararg ∧
      plan.finalize = .ok frame := by
  obtain ⟨selected, al, hselect, hal, hframe, hwith⟩ := framed_eq_ok h
  obtain ⟨hname, hpool, hgrows, hvararg⟩ := Allocation.rounds_kept hal
  obtain ⟨prologue, -, hwith⟩ := bind_eq_ok.mp hwith
  cases hwith
  exact ⟨selected, { al.plan with calleeSaved := al.assignment.calleeSaved }, hselect, hname, hpool,
    ⟨hgrows.objects, hgrows.varSized, hgrows.hasCalls, hgrows.maxCallFrame⟩, hvararg, hframe⟩

/-! From pseudo-operations to bytes. -/

theorem Expansion.expandBlocks_kept {frame : Frame} {folding : Bool} {blocks : List (List Pseudo)} {b : Nat}
    {t : Stream} (h : expandBlocks frame folding s b blocks = .ok t) : t.name = s.name ∧ t.pool = s.pool := by
  induction blocks generalizing s b with
  | nil =>
    cases h
    exact ⟨rfl, rfl⟩
  | cons block blocks ih =>
    obtain ⟨u, hblock, h⟩ := bind_eq_ok.mp h
    have hkept : u.name = s.name ∧ u.pool = s.pool := by
      refine foldlM_keeps (fun u => u.name = s.name ∧ u.pool = s.pool) (fun u m v hu hstep => ?_) ⟨rfl, rfl⟩
        (foldlM_of_expandBlock hblock)
      rw [expandInst_eq] at hstep
      cases hactions : actions frame folding b u m with
      | error e =>
        rw [hactions] at hstep
        cases hstep
      | ok as =>
        rw [hactions] at hstep
        cases hstep
        obtain ⟨hname, hpool⟩ := u.acts_kept as
        exact ⟨hname.trans hu.1, hpool.trans hu.2⟩
    obtain ⟨hname, hpool⟩ := ih h
    exact ⟨hname.trans hkept.1, hpool.trans hkept.2⟩

theorem mem_mapM_ok {α β : Type} {f : α → Checked β} {xs : List α} {ys : List β} (h : xs.mapM f = .ok ys) {y : β}
    (hy : y ∈ ys) : ∃ x ∈ xs, f x = .ok y := by
  obtain ⟨hlen, hall⟩ := Stream.mapM_ok h
  obtain ⟨k, hk⟩ := List.mem_iff_getElem?.mp hy
  have hlt : k < xs.length := by
    rw [← hlen]
    exact (List.getElem?_eq_some_iff.mp hk).1
  obtain ⟨y', hy', hf⟩ := hall k _ (List.getElem?_eq_getElem hlt)
  cases hk.symm.trans hy'
  exact ⟨xs[k], List.getElem_mem hlt, hf⟩

structure EncodedFunction.Coded (e : EncodedFunction) (tail : List UInt8) : Prop where
  code : e.code = encodeAll e.instructions ++ tail
  fixups : e.fixups = symbolFixups 0 e.instructions
  /-- No label is left. -/
  labels : ∀ i ∈ e.instructions, ∀ l, i.operand? ≠ some (.label l)

theorem Stream.resolveOperand_label {offsets : Array Nat} {i j : Instruction}
    (h : s.resolveOperand offsets i = .ok j) (l : Nat) : j.operand? ≠ some (.label l) := by
  rw [resolveOperand] at h
  split at h
  · next hnone =>
    cases h
    rw [hnone]
    simp
  · next imm himm =>
    obtain ⟨imm', hresolved, h⟩ := bind_eq_ok.mp h
    cases h
    have hoperand : (i.mapOperand fun _ => imm').operand? = some imm' := by
      cases i <;> cases himm <;> rfl
    rw [hoperand]
    rintro ⟨⟩
    cases imm with
    | value k => cases hresolved
    | symbol target => cases hresolved
    | label l' =>
      obtain ⟨offset, -, hresolved⟩ := bind_eq_ok.mp hresolved
      cases hresolved

theorem Stream.finish_coded {relaxing : Bool} {size : Nat} (h : s.finish relaxing size = .ok e) :
    e.name = s.name ∧ e.Coded (poolImage (encodeAll e.instructions).length s.pool.flatten) := by
  obtain ⟨t, hrelax, h⟩ := bind_eq_ok.mp h
  obtain ⟨instrs, -, h⟩ := bind_eq_ok.mp h
  obtain ⟨resolved, hresolved, h⟩ := bind_eq_ok.mp h
  cases h
  obtain ⟨ht, -⟩ := relax_spec hrelax
  refine ⟨by rw [ht], by rw [poolBytes, ht], rfl, fun j hj l => ?_⟩
  obtain ⟨i, -, hi⟩ := mem_mapM_ok hresolved hj
  exact resolveOperand_label hi l

theorem compile_coded {options : Options} (h : fn.compile options = .ok e) :
    ∃ selected, fn.selectOperations = .ok selected ∧ e.name = fn.name ∧
      e.Coded (poolImage (encodeAll e.instructions).length selected.routine.pool.flatten) := by
  obtain ⟨frame, g, s, hframed, hexpand, hfinish⟩ := compile_eq_ok h
  obtain ⟨selected, plan, hselect, hname, hpool, -⟩ := framed_kept hframed
  obtain ⟨hselected, -⟩ := Selection.selectOperations_built hselect
  obtain ⟨hsname, hspool⟩ := Expansion.expandBlocks_kept hexpand
  have hclean : (if options.cleanup then s.clean else s).name = g.name ∧
      (if options.cleanup then s.clean else s).pool = g.pool := by
    split
    · exact Stream.clean_keeps (P := fun t => t.name = g.name ∧ t.pool = g.pool) (fun t ht => ht) s ⟨hsname, hspool⟩
    · exact ⟨hsname, hspool⟩
  obtain ⟨hename, hcoded⟩ := Stream.finish_coded hfinish
  rw [hclean.2, hpool] at hcoded
  exact ⟨selected, hselect, by rw [hename, hclean.1, hname, hselected], hcoded⟩

end DirectPage
