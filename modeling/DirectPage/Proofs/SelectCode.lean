import DirectPage.Proofs.CanonicalCompare
import DirectPage.Proofs.OperationCode

/-! Selections: the branches behind a compare reach their label exactly when the relation holds, so that one of
two registers is copied. -/
namespace DirectPage

namespace Machine

structure Puts (a : Nat) (w : Word) (m m' : Machine) : Prop where
  rest : ∃ acc flags mem, m' = { m with a := acc, flags := flags, memory := mem }
  value : m'.memory.word a = w
  bytes : ∀ b < memorySize, b < a ∨ a + 4 ≤ b → m'.memory.get b = m.memory.get b

namespace Puts

variable {a : Nat} {w w' : Word} {m m1 m' : Machine}

theorem of_setWord (ha : a + 4 ≤ memorySize) (h : m' = { m with memory := m.memory.setWord a w }) : m.Puts a w m' := by
  subst h
  exact ⟨⟨_, _, _, rfl⟩, Memory.word_setWord_self ha w, fun b hb h => Memory.get_setWord_ne ha hb h w⟩

/-- Nothing was written, but the word is there. -/
theorem of_memory_eq (h : ∃ acc flags, m' = { m with a := acc, flags := flags }) (hw : m.memory.word a = w) :
    m.Puts a w m' := by
  obtain ⟨acc, flags, rfl⟩ := h
  exact ⟨⟨acc, flags, m.memory, rfl⟩, hw, fun _ _ _ => rfl⟩

/-- Only the last of two writes to an address shows. -/
theorem trans (h : m.Puts a w m1) (h' : m1.Puts a w' m') : m.Puts a w' m' := by
  obtain ⟨⟨acc, flags, mem, rfl⟩, -, hbytes⟩ := h
  obtain ⟨⟨acc', flags', mem', rfl⟩, hvalue, hbytes'⟩ := h'
  exact ⟨⟨acc', flags', mem', rfl⟩, hvalue, fun b hb hab => (hbytes' b hb hab).trans (hbytes b hb hab)⟩

theorem of_start (h : m1.Puts a w m') (hm : ∃ acc flags, m1 = { m with a := acc, flags := flags }) : m.Puts a w m' :=
  trans (of_memory_eq hm rfl) h

theorem yields (h : m.Puts a w m') : m.Yields a w m' := by
  obtain ⟨acc, flags, mem, rfl⟩ := h.rest
  exact ⟨⟨acc, m.t, flags, mem, rfl⟩, h.value, h.bytes⟩

end Puts

end Machine

namespace Expansion

open Machine

variable {d l t f : UInt8} {is : List Instruction} {as : List Action}

private theorem taken_cons (step : BranchStep) (rest : Plan) (flags : Flags) :
    Plan.taken (step :: rest) flags =
      if Action.goes flags step.cond then step.dest == .target else rest.taken flags := by
  obtain ⟨_ | cond, dest⟩ := step <;> rfl

theorem run_planActions (plan : Plan) (target skip : Nat) (h : target ≠ skip) (m : Machine) :
    Action.run (none, m) (planActions plan target skip) =
      .ok (if plan.taken m.flags then some target else none, m) := by
  change Action.run (none, m) (plan.map _ ++ [.define skip]) = _
  induction plan with
  | nil => rfl
  | cons step rest ih =>
    rw [List.map_cons, List.cons_append, Action.run_cons, Action.step, ok_bind, taken_cons]
    cases Action.goes m.flags step.cond with
    | false => exact ih
    | true =>
      rw [if_pos rfl, if_pos rfl, Action.run_append, Action.run_skip _ (by simp), ok_bind, Action.run_cons, Action.step]
      cases step.dest with
      | target => simp [h.symm]
      | skip => simp

theorem move_does (hd : d < 64) (hl : l < 64) : ∃ is, move (.general d) (.general l) = .ok is ∧ ∀ m : Machine,
    m.Does is fun m1 => m.Puts (4 * d.toNat) (m.memory.word (4 * l.toNat)) m1 ∧ m1.flags = m.flags := by
  change ∃ is, (if Register.general d = Register.general l then pure [] else do
    let target ← (Reg.general d).slot
    let source ← (Reg.general l).slot
    pure [Instruction.regAlu .movr target source]) = .ok is ∧ _
  split
  · next he =>
    cases he
    exact ⟨_, rfl, fun m => .nil ⟨.of_memory_eq ⟨_, _, rfl⟩ rfl, rfl⟩⟩
  · rw [Reg.slot_general hl, Reg.slot_general hd]
    refine ⟨_, rfl, fun m => .cons (m.advance_movr _ _) (.nil ⟨.of_setWord (slot_le hd) ?_, rfl⟩)⟩
    rw [UInt8.toNat_mul_four hl, UInt8.toNat_mul_four hd]

theorem compare_does (cc : CondCode) {rhs : CmpRhs Reg} (hl : l < 64)
    (hr : ∀ r, rhs = .reg r → ∃ n < 64, r = .general n) :
    ∃ is plan inverse, compare (.int cc (.general l) rhs) = .ok (is, plan, inverse) ∧ ∀ m : Machine,
      m.Does is fun m1 => (∃ acc flags, m1 = { m with a := acc, flags := flags }) ∧
        plan.taken m1.flags = cc.holds (m.memory.word (4 * l.toNat)) (rhs.eval m.regs) ∧
        inverse.taken m1.flags = !cc.holds (m.memory.word (4 * l.toNat)) (rhs.eval m.regs) := by
  rw [compare, Reg.slot_general hl, ok_bind]
  cases rhs with
  | reg r =>
    obtain ⟨n, hn, rfl⟩ := hr r rfl
    simp only [Reg.slot_general hn, ok_bind]
    refine ⟨_, _, _, rfl, fun m => ?_⟩
    have hcmp : m.advance (.regAlu .cmpr (l * 4) (n * 4)) =
        .ok (m.compare (m.memory.word (4 * l.toNat)) (m.memory.word (4 * n.toNat))) := by
      change (m.readWord (slotAddr (n * 4)) >>= fun w => m.readWord (slotAddr (l * 4)) >>= fun v =>
        pure (m.compare v w)) = _
      rw [readWord_slot, readWord_slot, UInt8.toNat_mul_four hl, UInt8.toNat_mul_four hn]
      rfl
    refine .cons hcmp (.nil ⟨⟨_, _, rfl⟩, CondCode.taken_plan _ _ _, ?_⟩)
    rw [← CondCode.holds_invert]
    exact CondCode.taken_plan _ _ _
  | imm k =>
    refine ⟨_, _, _, rfl, fun m => .cons (m.advance_lda _) (.cons rfl (.nil ⟨⟨_, _, rfl⟩, ?_, ?_⟩))⟩
    · rw [UInt8.toNat_mul_four hl]
      exact CondCode.taken_plan _ _ _
    · rw [UInt8.toNat_mul_four hl, ← CondCode.holds_invert]
      exact CondCode.taken_plan _ _ _

private theorem run_before (label : Nat) (is : List Instruction) (skipped : Bool) (m : Machine) :
    Action.run (if skipped then some label else none, m) (is.map Action.emit ++ [Action.define label]) =
      if skipped then .ok (none, m) else Action.run (none, m) (is.map .emit) := by
  cases skipped with
  | true =>
    rw [if_pos rfl, Action.run_append, Action.run_skip label (by simp), ok_bind]
    simp [Action.step]
  | false =>
    simp only [Bool.false_eq_true, if_false, Action.run_append, Action.run_emit]
    rcases m.advanceAll is with e | m1 <;> rfl

private theorem le_of_mem_planActions (plan : Plan) {labels label : Nat} {cond : Option BranchCond}
    (h : .branch cond label ∈ planActions plan labels (labels + 1)) : labels ≤ label := by
  simp only [planActions, List.cons_append, List.mem_cons, List.mem_append, List.mem_map, List.not_mem_nil, or_false,
    reduceCtorEq, false_or, Action.branch.injEq] at h
  obtain ⟨step, -, -, rfl⟩ := h
  cases step.dest <;> simp

/-- A selection between general registers can be expanded, and its branches lead to labels of its own. It copies one of
two registers, whatever registers coincide. -/
theorem selectActions_runs (cc : CondCode) {rhs : CmpRhs Reg} (hd : d < 64) (ht : t < 64) (hf : f < 64) (hl : l < 64)
    (hr : ∀ r, rhs = .reg r → ∃ n < 64, r = .general n) (labels : Nat) :
    ∃ as, selectActions labels (.int cc (.general l) rhs) (.general d) (.general t) (.general f) = .ok as ∧
      (∀ cond label, .branch cond label ∈ as → labels ≤ label) ∧ ∀ m : Machine,
        m.Runs as (m.Puts (4 * d.toNat) (if cc.holds (m.memory.word (4 * l.toNat)) (rhs.eval m.regs) then
          m.memory.word (4 * t.toNat) else m.memory.word (4 * f.toNat))) := by
  obtain ⟨first, hfirst, hfirsts⟩ := move_does hd hf
  obtain ⟨second, hsecond, hseconds⟩ := move_does hd ht
  obtain ⟨code, plan, inverse, hcmp, hcompares⟩ := compare_does cc hl hr
  simp only [selectActions, Reg.assigned, ok_bind, hfirst, hsecond, hcmp]
  split
  · next he =>
    cases he
    refine ⟨_, rfl, by simp, fun m => ?_⟩
    rw [ite_self]
    exact ((hseconds m).mono fun _ h => h.1).runs
  · have hbranch (plan : Plan) (m : Machine) := run_planActions plan labels (labels + 1) (by omega) m
    have hstart (m : Machine) := (hcompares m).runs
    split
    · next hdt =>
      cases hdt
      refine ⟨_, rfl, fun cond label hmem => le_of_mem_planActions plan (by simpa using hmem), fun m => ?_⟩
      obtain ⟨m1, hcode, hsame, hplan, -⟩ := hstart m
      obtain ⟨m2, hrun, hputs, -⟩ := (hfirsts m1).runs
      have hm1 : m1.memory = m.memory := by
        obtain ⟨acc, flags, rfl⟩ := hsame
        rfl
      rw [hm1] at hputs
      simp only [Runs, List.append_assoc, List.cons_append, Action.run_append (code.map _), Action.run_cons,
        hcode, ok_bind, Action.step, Action.run_append (planActions plan _ _), hbranch, hplan, run_before]
      cases cc.holds (m.memory.word (4 * l.toNat)) (rhs.eval m.regs) with
      | true => exact ⟨m1, rfl, .of_memory_eq hsame rfl⟩
      | false => exact ⟨m2, hrun, hputs.of_start hsame⟩
    · next hdt =>
      refine ⟨_, rfl, fun cond label hmem => le_of_mem_planActions inverse (by simpa using hmem), fun m => ?_⟩
      obtain ⟨m1, hcode, hsame, -, hinverse⟩ := hstart m
      obtain ⟨m2, hrun2, hputs2, hflags⟩ := (hfirsts m1).runs
      obtain ⟨m3, hrun3, hputs3, -⟩ := (hseconds m2).runs
      have hm1 : m1.memory = m.memory := by
        obtain ⟨acc, flags, rfl⟩ := hsame
        rfl
      have hkept : m2.memory.word (4 * t.toNat) = m1.memory.word (4 * t.toNat) := by
        have hne : d.toNat ≠ t.toNat := fun he => hdt (by rw [UInt8.toNat_inj.mp he])
        exact hputs2.yields.others (slot_le ht) (by omega)
      rw [hm1] at hputs2 hkept
      rw [hkept] at hputs3
      rw [← hflags] at hinverse
      simp only [Runs, List.append_assoc, List.cons_append, Action.run_append (code.map _), Action.run_cons,
        hcode, ok_bind, Action.step, Action.run_append (first.map _), hrun2,
        Action.run_append (planActions inverse _ _), hbranch, hinverse, run_before]
      cases cc.holds (m.memory.word (4 * l.toNat)) (rhs.eval m.regs) with
      | true => exact ⟨m3, hrun3, (hputs2.of_start hsame).trans hputs3⟩
      | false => exact ⟨m2, rfl, hputs2.of_start hsame⟩

section Labels

variable {s : Stream}

private theorem labels_emit (s : Stream) (is : List Instruction) : (s.acts (is.map .emit)).labels = s.labels := by
  rw [Stream.acts_emit]
  rfl

private theorem admits_branches (plan : Plan) (label : BranchStep → Nat)
    (h : ∀ step ∈ plan, s.labels[label step]? = some none) :
    s.Admits (plan.map fun step => .branch step.cond (label step)) ∧
      (s.acts (plan.map fun step => .branch step.cond (label step))).labels = s.labels := by
  induction plan generalizing s with
  | nil => exact ⟨trivial, rfl⟩
  | cons step plan ih =>
    obtain ⟨ha, hl⟩ := ih (s := s.emitBranch step.cond (label step)) fun st hst => h st (List.mem_cons_of_mem _ hst)
    exact ⟨⟨h step List.mem_cons_self, ha⟩, hl⟩

/-- A plan binds a label of its own, and leaves the others. -/
private theorem admits_planActions (plan : Plan) {target skip : Nat} (ht : s.labels[target]? = some none)
    (hs : s.labels.length = skip) : s.Admits (planActions plan target skip) ∧
      (s.acts (planActions plan target skip)).labels[target]? = some none := by
  subst hs
  have hlt := (List.getElem?_eq_some_iff.mp ht).1
  have htarget : s.newLabel.2.labels[target]? = some none := by
    rw [Stream.newLabel, List.getElem?_append_left hlt, ht]
  have hskip : s.newLabel.2.labels[s.labels.length]? = some none := by simp [Stream.newLabel]
  obtain ⟨label, hplan, hlabel⟩ : ∃ label : BranchStep → Nat, planActions plan target s.labels.length =
      Action.newLabel :: (plan.map fun step => Action.branch step.cond (label step)) ++
        [Action.define s.labels.length] ∧
        ∀ step, s.newLabel.2.labels[label step]? = some none := by
    refine ⟨_, rfl, fun step => ?_⟩
    cases step.dest with
    | target => exact htarget
    | skip => exact hskip
  obtain ⟨ha, hl⟩ := admits_branches (s := s.newLabel.2) plan label fun step _ => hlabel step
  rw [hplan]
  refine ⟨Stream.admits_append.mpr ⟨ha, ?_⟩, ?_⟩
  · refine ⟨?_, trivial⟩
    rw [← hskip, ← hl]
    rfl
  · rw [Stream.acts_append]
    change (((s.newLabel.2.acts _).labels).set s.labels.length _)[target]? = _
    rw [List.getElem?_set_ne (by omega)]
    exact (congrArg (·[target]?) hl).trans htarget

theorem admits_selectActions {cmp : Compare} {dst onTrue onFalse : Reg}
    (h : selectActions s.labels.length cmp dst onTrue onFalse = .ok as) : s.Admits as := by
  have hshape : Expands s ⟨[], 0, 0, false, false, []⟩ (.selectCc cmp dst onTrue onFalse) as := expands_selectActions h
  cases hshape with
  | code | move => exact Stream.admits_emit _
  | @select _ _ _ _ code first second plan =>
    have hn : ((s.acts (code.map .emit)).newLabel.2.acts (first.map .emit)).labels = s.labels ++ [none] := by
      rw [labels_emit, Stream.newLabel, labels_emit]
    have hlen : _ = s.labels.length + 1 := (congrArg List.length hn).trans List.length_append
    obtain ⟨hp, hl⟩ := admits_planActions plan (by rw [hn]; exact List.getElem?_concat_length) hlen
    refine Stream.admits_append.mpr ⟨Stream.admits_append.mpr ⟨Stream.admits_append.mpr ⟨Stream.admits_append.mpr
      ⟨Stream.admits_emit code, Stream.admits_emit first⟩, ?_⟩, Stream.admits_emit second⟩, ?_, trivial⟩
    · rw [Stream.acts_append]
      exact hp
    · rw [Stream.acts_append, labels_emit, Stream.acts_append, Stream.acts_append]
      exact hl

end Labels

end Expansion

end DirectPage
