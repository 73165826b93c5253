import DirectPage.Expansion
import DirectPage.Proofs.Thinning

/-! Expansion as a list of changes to a stream, which do not depend on what is in the stream so far. -/
namespace DirectPage

inductive Action
  | emit (i : Instruction)
  | branch (cond : Option BranchCond) (label : Nat)
  | newLabel
  | define (label : Nat)

/-- Whether all branches on a condition stand behind a compare, given whether the first place does. -/
def Action.guards : Bool → List Action → Bool
  | _, [] => true
  | fresh, .emit i :: rest => guards (i.isCompare || (fresh && !i.isReload)) rest
  | fresh, .branch cond _ :: rest => (cond.isNone || fresh) && guards fresh rest
  | fresh, .newLabel :: rest => guards fresh rest
  | _, .define _ :: rest => guards false rest

def Stream.act (s : Stream) : Action → Stream
  | .emit i => s.emit i
  | .branch cond label => s.emitBranch cond label
  | .newLabel => s.newLabel.2
  | .define label => s.define label

def Stream.acts (s : Stream) (as : List Action) : Stream := as.foldl Stream.act s

@[simp] theorem Stream.acts_nil (s : Stream) : s.acts [] = s := rfl

@[simp] theorem Stream.acts_cons (s : Stream) (a : Action) (as : List Action) :
    s.acts (a :: as) = (s.act a).acts as := rfl

theorem Stream.acts_append (s : Stream) (as bs : List Action) : s.acts (as ++ bs) = (s.acts as).acts bs :=
  List.foldl_append

theorem Stream.acts_kept (s : Stream) (as : List Action) : (s.acts as).name = s.name ∧ (s.acts as).pool = s.pool := by
  induction as generalizing s with
  | nil => exact ⟨rfl, rfl⟩
  | cons a as ih => cases a <;> exact ih _

theorem Stream.blocks_acts (s : Stream) (as : List Action) : (s.acts as).blocks = s.blocks := by
  induction as generalizing s with
  | nil => rfl
  | cons a as ih =>
    rw [acts_cons, ih]
    cases a <;> rfl

theorem Stream.acts_emit (s : Stream) (is : List Instruction) : s.acts (is.map .emit) = s.emitAll is := by
  induction is generalizing s with
  | nil => rfl
  | cons i is ih => exact ih (s.emit i)

namespace Stream

theorem WellFormed.act {s : Stream} (h : s.WellFormed) (a : Action) : (s.act a).WellFormed := by
  cases a with
  | emit i => exact h.emit i
  | branch cond label => exact h.emitBranch cond label
  | newLabel => exact h.newLabel
  | define label => exact h.define label

theorem WellFormed.acts {s : Stream} (h : s.WellFormed) (as : List Action) : (s.acts as).WellFormed := by
  induction as generalizing s with
  | nil => exact h
  | cons a as ih => exact ih (h.act a)

section Guards

variable {s : Stream}

variable {t : Stream} {i k : Nat} {first between first' between' : Nat → Instruction → Prop} {instr : Instruction}

/-- What comes behind a place does not change what the place is behind. -/
theorem Behind.extend (h : s.Behind first between i) (hget : ∀ k < i, t.instructions[k]? = s.instructions[k]?)
    (hl : ∀ k ≤ i, t.isLabelled k = true → s.isLabelled k = true) (hfirst : ∀ j < i, ∀ c, first j c → first' j c)
    (hbetween : ∀ k < i, ∀ c, between k c → between' k c) : t.Behind first' between' i := by
  obtain ⟨j, hj, ⟨c, hc, hcf⟩, hneutral, hlabels⟩ := h
  refine ⟨j, hj, ⟨c, by rw [hget j hj, hc], hfirst j hj c hcf⟩, fun k hjk hki instr hk => ?_, fun k hjk hki => ?_⟩
  · exact hbetween k hki instr (hneutral k hjk hki instr (by rw [← hget k hki, hk]))
  · rw [← Bool.not_eq_true]
    intro hlab
    have := hl k hki hlab
    rw [hlabels k hjk hki] at this
    cases this

private theorem Fresh.extend (h : s.Fresh i) (hget : ∀ k < i, t.instructions[k]? = s.instructions[k]?)
    (hl : ∀ k ≤ i, t.isLabelled k = true → s.isLabelled k = true) : t.Fresh i :=
  Behind.extend h hget hl (fun _ _ _ hc => hc) fun _ _ _ hr => hr

theorem isLabelled_newLabel (h : s.newLabel.2.isLabelled k = true) : s.isLabelled k = true := by
  simpa [isLabelled, newLabel] using h

theorem isLabelled_define {label : Nat} (h : (s.define label).isLabelled k = true)
    (hk : k < s.instructions.size) : s.isLabelled k = true := by
  simp only [isLabelled, define, List.contains_iff_mem] at h ⊢
  rcases List.mem_or_eq_of_mem_set h with hm | he
  · exact hm
  · cases he
    exact absurd hk (Nat.lt_irrefl _)

private theorem not_isLabelled_of_size_lt (hw : s.WellFormed) (hk : s.instructions.size < k) :
    s.isLabelled k = false := by
  rw [← Bool.not_eq_true]
  intro hl
  simp only [isLabelled, List.contains_iff_mem] at hl
  obtain ⟨label, hlabel⟩ := List.mem_iff_getElem?.mp hl
  have := hw.labels_le label k hlabel
  omega

theorem Behind.pushEnd (hw : s.WellFormed) (ht : t.instructions = s.instructions.push instr) (hl : t.labels = s.labels)
    (h : first' s.instructions.size instr ∨
      s.Behind first between s.instructions.size ∧ between' s.instructions.size instr)
    (hfirst : ∀ j < s.instructions.size, ∀ c, first j c → first' j c)
    (hbetween : ∀ k < s.instructions.size, ∀ c, between k c → between' k c) :
    t.Behind first' between' t.instructions.size := by
  have hlab (k : Nat) : t.isLabelled k = s.isLabelled k := by rw [isLabelled, isLabelled, hl]
  have hsize : t.instructions.size = s.instructions.size + 1 := by rw [ht, Array.size_push]
  rw [hsize]
  rcases h with hc | ⟨⟨j, hj, ⟨c, hc, hcf⟩, hneutral, hlabels⟩, hr⟩
  · refine ⟨s.instructions.size, Nat.lt_succ_self _, ⟨instr, ?_, hc⟩, fun k h1 h2 => by omega, fun k h1 h2 => ?_⟩
    · rw [ht, Array.getElem?_push_size]
    · rw [hlab, not_isLabelled_of_size_lt hw h1]
  · refine ⟨j, by omega, ⟨c, ?_, hfirst j hj c hcf⟩, fun k hjk hki i hi => ?_, fun k hjk hki => ?_⟩
    · rw [ht, Array.getElem?_push, if_neg (by omega), hc]
    · rw [ht, Array.getElem?_push] at hi
      split at hi
      · next he =>
        cases hi
        exact he ▸ hr
      · exact hbetween k (by omega) i (hneutral k hjk (by omega) i hi)
    · rw [hlab]
      by_cases hk : k ≤ s.instructions.size
      · exact hlabels k hjk hk
      · exact not_isLabelled_of_size_lt hw (by omega)

private theorem Fresh.pushEnd (hw : s.WellFormed)
    (h : instr.isCompare = true ∨ (s.Fresh s.instructions.size ∧ instr.isReload = false))
    (ht : t.instructions = s.instructions.push instr) (hl : t.labels = s.labels) :
    t.Fresh t.instructions.size :=
  Behind.pushEnd hw ht hl h (fun _ _ _ hc => hc) fun _ _ _ hr => hr

/-- Old branches stay guarded while instructions and labels are added behind them. -/
private theorem Guarded.extend (hw : s.WellFormed) (hg : s.Guarded)
    (hget : ∀ k < s.instructions.size, t.instructions[k]? = s.instructions[k]?)
    (hl : ∀ k < s.instructions.size, t.isLabelled k = true → s.isLabelled k = true) {label : Nat}
    {cond : BranchCond} {offset : Word} (hf : (i, label) ∈ s.fixups)
    (hi : t.instructions[i]? = some (.branch cond offset)) : t.Fresh i := by
  have hlt : i < s.instructions.size := hw.fixup_lt hf
  rw [hget i hlt] at hi
  exact (hg i label cond offset hf hi).extend (fun k hk => hget k (by omega))
    fun k hk => hl k (by omega)

theorem push_getElem? (instr : Instruction) (k : Nat) (hk : k < s.instructions.size) :
    (s.instructions.push instr)[k]? = s.instructions[k]? := by
  rw [Array.getElem?_push, if_neg (by omega)]

theorem Guarded.acts (hw : s.WellFormed) (hg : s.Guarded) (fresh : Bool) (as : List Action)
    (hf : fresh = true → s.Fresh s.instructions.size) (h : Action.guards fresh as = true) :
    (s.acts as).Guarded := by
  induction as generalizing s fresh with
  | nil => exact hg
  | cons a as ih =>
    cases a with
    | emit i =>
      refine ih (hw.emit i) (fun k label cond offset hk hi => ?_) _ (fun hfresh => ?_) h
      · exact hg.extend (t := s.emit i) hw (push_getElem? i) (fun _ _ hl => hl) hk hi
      · simp only [Bool.or_eq_true, Bool.and_eq_true, Bool.not_eq_true'] at hfresh
        exact Fresh.pushEnd hw (hfresh.imp id fun ⟨h1, h2⟩ => ⟨hf h1, h2⟩) rfl rfl
    | branch cond label =>
      simp only [Action.guards, Bool.and_eq_true, Bool.or_eq_true] at h
      obtain ⟨hcond, h⟩ := h
      refine ih (hw.emitBranch cond label) (fun k l c offset hk hi => ?_) _ (fun hfresh => ?_) h
      · simp only [act, emitBranch, List.mem_append, List.mem_singleton, Prod.mk.injEq] at hk
        rcases hk with hk | ⟨rfl, rfl⟩
        · exact hg.extend (t := s.emitBranch cond label) hw (push_getElem? _) (fun _ _ hl => hl) hk hi
        · have hfresh : s.Fresh s.instructions.size := by
            rcases hcond with hnone | hfresh
            · rw [Option.isNone_iff_eq_none] at hnone
              subst hnone
              simp only [act, emitBranch, Array.getElem?_push_size] at hi
              cases hi
            · exact hf hfresh
          exact hfresh.extend (push_getElem? _) fun _ _ hl => hl
      · refine Fresh.pushEnd hw (.inr ⟨hf hfresh, ?_⟩) rfl rfl
        cases cond <;> rfl
    | newLabel =>
      refine ih hw.newLabel (fun k label cond offset hk hi => ?_) _ (fun hfresh => ?_) h
      · exact hg.extend (t := s.newLabel.2) hw (fun _ _ => rfl) (fun _ _ => isLabelled_newLabel) hk hi
      · exact (hf hfresh).extend (fun _ _ => rfl) fun _ _ => isLabelled_newLabel
    | define label =>
      refine ih (hw.define label) (fun k l cond offset hk hi => ?_) _ (fun hfresh => ?_) h
      · exact hg.extend (t := s.define label) hw (fun _ _ => rfl)
          (fun k hk hl => isLabelled_define hl hk) hk hi
      · cases hfresh

end Guards

end Stream

namespace Expansion

def planActions (plan : Plan) (target skip : Nat) : List Action :=
  Action.newLabel :: (plan.map fun step => Action.branch step.cond (match step.dest with
    | .target => target
    | .skip => skip)) ++ [Action.define skip]

def selectActions (labels : Nat) (cmp : Compare) (dst onTrue onFalse : Reg) : Checked (List Action) := do
  let rd ← dst.assigned
  let rt ← onTrue.assigned
  let re ← onFalse.assigned
  if rt = re then return (← move dst onTrue).map .emit
  let (code, plan, inverse) ← compare cmp
  if rd = rt then
    return code.map .emit ++ .newLabel :: planActions plan labels (labels + 1) ++
      (← move dst onFalse).map .emit ++ [.define labels]
  else
    let first ← move dst onFalse
    let second ← move dst onTrue
    return code.map .emit ++ .newLabel :: first.map .emit ++ planActions inverse labels (labels + 1) ++
      second.map .emit ++ [.define labels]

def actions (frame : Frame) (folding : Bool) (b : Nat) (s : Stream) (m : Pseudo) : Checked (List Action) :=
  match m with
  | .selectCc cmp dst onTrue onFalse => selectActions s.labels.length cmp dst onTrue onFalse
  | .brCc cmp target => do
    let label ← branchLabel s target
    let (code, plan, _) ← compare cmp
    return code.map .emit ++ planActions plan label s.labels.length
  | .jump target =>
    if folding && target == b + 1 then return []
    else return [.branch none (← branchLabel s target)]
  | m => do return (← code s frame m).map .emit

private theorem emitPlan_eq (s : Stream) (plan : Plan) (target : Nat) :
    emitPlan s plan target = s.acts (planActions plan target s.labels.length) := by
  have hplan (s : Stream) (skip : Nat) : plan.foldl (emitStep target skip) s =
      s.acts (plan.map fun step => .branch step.cond (match step.dest with
        | .target => target
        | .skip => skip)) := by
    rw [Stream.acts, List.foldl_map]
    rfl
  rw [planActions, List.cons_append, Stream.acts_cons, Stream.acts_append]
  exact congrArg (Stream.define · s.labels.length) (hplan s.newLabel.2 s.labels.length)

private theorem labels_newLabel (s : Stream) : s.newLabel.2.labels.length = s.labels.length + 1 := by
  simp [Stream.newLabel]

private theorem selectCc_eq (s : Stream) (cmp : Compare) (dst onTrue onFalse : Reg) :
    selectCc s cmp dst onTrue onFalse =
      s.acts <$> selectActions s.labels.length cmp dst onTrue onFalse := by
  simp only [selectCc, selectActions]
  rcases dst.assigned with e | rd
  · rfl
  rcases onTrue.assigned with e | rt
  · rfl
  rcases onFalse.assigned with e | re
  · rfl
  simp only [ok_bind]
  by_cases hte : rt = re
  · rw [if_pos hte, if_pos hte]
    rcases move dst onTrue with e | is
    · rfl
    · exact congrArg Except.ok (s.acts_emit is).symm
  · rw [if_neg hte, if_neg hte]
    rcases compare cmp with e | ⟨code, plan, inverse⟩
    · rfl
    simp only [ok_bind]
    have hlabels : (s.emitAll code).newLabel.2.labels.length = s.labels.length + 1 :=
      labels_newLabel (s.emitAll code)
    by_cases hdt : rd = rt
    · rw [if_pos hdt, if_pos hdt]
      rcases move dst onFalse with e | is
      · rfl
      · refine congrArg Except.ok ?_
        simp only [Stream.acts_append, Stream.acts_cons, Stream.acts_emit, List.append_assoc,
          List.cons_append, emitPlan_eq]
        rw [hlabels]
        rfl
    · rw [if_neg hdt, if_neg hdt]
      rcases move dst onFalse with e | first
      · rfl
      rcases move dst onTrue with e | second
      · rfl
      refine congrArg Except.ok ?_
      simp only [Stream.acts_append, Stream.acts_cons, Stream.acts_emit, List.append_assoc,
        List.cons_append, emitPlan_eq]
      have hfirst : ((s.emitAll code).newLabel.2.emitAll first).labels.length = s.labels.length + 1 :=
        hlabels
      rw [hfirst]
      rfl

theorem expandInst_eq (frame : Frame) (folding : Bool) (b : Nat) (s : Stream) (m : Pseudo) :
    expandInst frame folding b s m = s.acts <$> actions frame folding b s m := by
  have hcode : (do return s.emitAll (← code s frame m)) =
      s.acts <$> (do return (← code s frame m).map .emit : Checked (List Action)) := by
    rcases code s frame m with e | is
    · rfl
    · exact congrArg Except.ok (s.acts_emit is).symm
  cases m with
  | selectCc cmp dst onTrue onFalse => exact selectCc_eq s cmp dst onTrue onFalse
  | brCc cmp target =>
    simp only [expandInst, actions, brCc]
    rcases branchLabel s target with e | label
    · rfl
    rcases compare cmp with e | ⟨code, plan, inverse⟩
    · rfl
    refine congrArg Except.ok ?_
    rw [Stream.acts_append, Stream.acts_emit, emitPlan_eq]
    rfl
  | jump target =>
    simp only [expandInst, actions, jump]
    split
    · rfl
    · rcases branchLabel s target with e | label <;> rfl
  | _ => exact hcode

/-- Every block that the stream was made for has its label. -/
theorem expandBlock_of_lt {frame : Frame} {folding : Bool} {s : Stream} {b : Nat} {block : List Pseudo}
    (h : b < s.blocks) :
    expandBlock frame folding s b block = block.foldlM (expandInst frame folding b) (s.define b) := by
  rw [expandBlock, Stream.blockLabel?, if_pos h]
  rfl

theorem foldlM_of_expandBlock {frame : Frame} {folding : Bool} {s t : Stream} {b : Nat} {block : List Pseudo}
    (h : expandBlock frame folding s b block = .ok t) :
    block.foldlM (expandInst frame folding b) (s.define b) = .ok t := by
  by_cases hb : b < s.blocks
  · rwa [expandBlock_of_lt hb] at h
  · rw [expandBlock, Stream.blockLabel?, if_neg hb] at h
    cases h

structure SameShape (s t : Stream) : Prop where
  blocks : s.blocks = t.blocks
  pool : s.pool = t.pool
  labels : s.labels.length = t.labels.length

/-- Expansion sees only the shape of a stream. -/
theorem actions_congr {s t : Stream} (h : SameShape s t) (frame : Frame) (folding : Bool) (b : Nat)
    (m : Pseudo) : actions frame folding b s m = actions frame folding b t m := by
  have hlabel (target : Nat) : branchLabel s target = branchLabel t target := by
    rw [branchLabel, branchLabel, Stream.blockLabel?, Stream.blockLabel?, h.blocks]
  have haddr (dst : Reg) (target : AddrTarget) : loadAddr s dst target = loadAddr t dst target := by
    simp only [loadAddr, Stream.blockLabel?, Stream.poolLabel?, h.blocks, h.pool]
  cases m with
  | selectCc => rw [actions, actions, h.labels]
  | brCc cmp target => simp only [actions, hlabel, h.labels]
  | jump target => simp only [actions, hlabel]
  | loadAddr dst target => simp only [actions, code, haddr]
  | _ => rfl

inductive Moves (dst : Reg) : List Instruction → Prop
  | none : Moves dst []
  | word {d : UInt8} (s : UInt8) : dst.slot = .ok d → Moves dst [.regAlu .movr d s]
  | float (d s : UInt8) : Moves dst [.float .mov .double d s]

inductive Compares : List Instruction → Prop
  | regs (l r : UInt8) : Compares [.regAlu .cmpr l r]
  | imm (l : UInt8) (k : Word) : Compares [lda l, withConst .cmpImm k]
  | float (prec : Precision) (l r : UInt8) : Compares [.float .cmp prec l r]

inductive Expands (s : Stream) (frame : Frame) : Pseudo → List Action → Prop
  | code {m : Pseudo} {is : List Instruction} : code s frame m = .ok is → Expands s frame m (is.map .emit)
  | move {cmp : Compare} {dst onTrue onFalse : Reg} {is : List Instruction} : Moves dst is →
      Expands s frame (.selectCc cmp dst onTrue onFalse) (is.map .emit)
  | select {cmp : Compare} {dst onTrue onFalse : Reg} {code first second : List Instruction} {plan : Plan} :
      Compares code → Moves dst first → Moves dst second →
      Expands s frame (.selectCc cmp dst onTrue onFalse) (code.map Action.emit ++
        Action.newLabel :: first.map Action.emit ++ planActions plan s.labels.length (s.labels.length + 1) ++
        second.map Action.emit ++ [Action.define s.labels.length])
  | branch {cmp : Compare} {target label : Nat} {code : List Instruction} {plan : Plan} : Compares code →
      Expands s frame (.brCc cmp target) (code.map Action.emit ++ planActions plan label s.labels.length)
  | fall {target : Nat} : Expands s frame (.jump target) []
  | jump {target label : Nat} : Expands s frame (.jump target) [.branch none label]

section Expands

variable {frame : Frame} {folding : Bool} {b : Nat} {s : Stream} {m : Pseudo} {as : List Action}

private theorem moves_of_move {dst src : Reg} {is : List Instruction} (h : move dst src = .ok is) :
    Moves dst is := by
  obtain ⟨rd, hrd, h⟩ := bind_eq_ok.mp h
  obtain ⟨rs, -, h⟩ := bind_eq_ok.mp h
  split at h
  · cases h
    exact .none
  · split at h <;> obtain ⟨target, ht, h⟩ := bind_eq_ok.mp h <;> obtain ⟨source, -, h⟩ := bind_eq_ok.mp h <;> cases h
    · exact .float _ _
    · exact .word _ (bind_eq_ok.mpr ⟨rd, hrd, ht⟩)

private theorem compares_of_compare {cmp : Compare} {code : List Instruction} {plan inverse : Plan}
    (h : compare cmp = .ok (code, plan, inverse)) : Compares code := by
  cases cmp with
  | int cc lhs rhs =>
    obtain ⟨l, -, h⟩ := bind_eq_ok.mp h
    cases rhs with
    | reg r =>
      obtain ⟨slot, -, h⟩ := bind_eq_ok.mp h
      cases h
      exact .regs _ _
    | imm k =>
      cases h
      exact .imm _ _
  | float cc prec lhs rhs =>
    obtain ⟨l, -, h⟩ := bind_eq_ok.mp h
    obtain ⟨r, -, h⟩ := bind_eq_ok.mp h
    cases h
    exact .float _ _ _

theorem expands_selectActions {cmp : Compare} {dst onTrue onFalse : Reg}
    (h : selectActions s.labels.length cmp dst onTrue onFalse = .ok as) :
    Expands s frame (.selectCc cmp dst onTrue onFalse) as := by
  obtain ⟨rd, -, h⟩ := bind_eq_ok.mp h
  obtain ⟨rt, -, h⟩ := bind_eq_ok.mp h
  obtain ⟨re, -, h⟩ := bind_eq_ok.mp h
  split at h
  · obtain ⟨is, his, h⟩ := bind_eq_ok.mp h
    cases h
    exact .move (moves_of_move his)
  · obtain ⟨⟨code, plan, inverse⟩, hc, h⟩ := bind_eq_ok.mp h
    have hc := compares_of_compare hc
    dsimp only at h
    split at h
    · obtain ⟨is, his, h⟩ := bind_eq_ok.mp h
      cases h
      -- the first alternative is kept, by a branch over the move of the second
      have hkeep : Expands s frame (.selectCc cmp dst onTrue onFalse) (code.map Action.emit ++
          Action.newLabel :: [].map Action.emit ++ planActions plan s.labels.length (s.labels.length + 1) ++
            is.map Action.emit ++ [Action.define s.labels.length]) :=
        .select hc .none (moves_of_move his)
      simpa using hkeep
    · obtain ⟨first, hfirst, h⟩ := bind_eq_ok.mp h
      obtain ⟨second, hsecond, h⟩ := bind_eq_ok.mp h
      cases h
      exact .select hc (moves_of_move hfirst) (moves_of_move hsecond)

/-- Every operation expands in one of these ways. -/
theorem expands_actions (h : actions frame folding b s m = .ok as) : Expands s frame m as := by
  have hcode (h : (do return (← code s frame m).map .emit : Checked (List Action)) = .ok as) :
    Expands s frame m as := by
    obtain ⟨is, his, h⟩ := bind_eq_ok.mp h
    cases h
    exact .code his
  cases m with
  | selectCc => exact expands_selectActions h
  | brCc cmp target =>
    obtain ⟨label, -, h⟩ := bind_eq_ok.mp h
    obtain ⟨⟨code, plan, inverse⟩, hc, h⟩ := bind_eq_ok.mp h
    cases h
    exact .branch (compares_of_compare hc)
  | jump target =>
    simp only [actions] at h
    split at h
    · cases h
      exact .fall
    · obtain ⟨label, -, h⟩ := bind_eq_ok.mp h
      cases h
      exact .jump
  | _ => exact hcode h

end Expands

section Guards

open DirectPage.Action

private theorem guards_emit (fresh : Bool) (is : List Instruction) (label : Nat) :
    guards fresh (is.map .emit) = true ∧ guards fresh (is.map Action.emit ++ [Action.define label]) = true := by
  induction is generalizing fresh with
  | nil => exact ⟨rfl, rfl⟩
  | cons i is ih => exact ih _

private theorem guards_compare {code : List Instruction} (h : Compares code) (fresh : Bool) (rest : List Action) :
    guards fresh (code.map .emit ++ rest) = guards true rest := by
  cases h <;> rfl

private theorem guards_move {dst : Reg} {is : List Instruction} (h : Moves dst is) (rest : List Action) :
    guards true (is.map .emit ++ rest) = guards true rest := by
  cases h <;> rfl

private theorem guards_plan (plan : Plan) (target skip : Nat) (rest : List Action) :
    guards true (planActions plan target skip ++ rest) = guards false rest := by
  simp only [planActions, List.cons_append, guards, List.append_assoc, List.nil_append]
  induction plan with
  | nil => rfl
  | cons step plan ih => simpa [guards] using ih

/-- Expansion puts every branch on a condition behind a compare. -/
theorem guards_actions {frame : Frame} {folding : Bool} {b : Nat} {s : Stream} {m : Pseudo}
    {as : List Action} (h : actions frame folding b s m = .ok as) : guards false as = true := by
  cases expands_actions h with
  | code | move => exact (guards_emit false _ 0).1
  | select hc hfirst =>
    simp only [List.append_assoc, List.cons_append]
    rw [guards_compare hc, guards, guards_move hfirst, guards_plan]
    exact (guards_emit false _ _).2
  | branch hc =>
    rw [guards_compare hc, ← List.append_nil (planActions _ _ _), guards_plan]
    rfl
  | fall | jump => rfl

end Guards

end Expansion

end DirectPage
