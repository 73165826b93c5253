import DirectPage.Proofs.NarrowArithmetic

/-! Compares of narrow integers. They compare whole registers, and so they decide as the relation on the bits of the
type where the words are extended as the relation reads them, but not in every case. -/
namespace DirectPage

/-- Whether a relation holds of numbers of some bits. -/
def CondCode.holdsAt {w : Nat} (cc : CondCode) (l r : BitVec w) : Bool :=
  match cc with
  | eq => l == r
  | ne => l != r
  | lt => l.slt r
  | le => l.sle r
  | gt => r.slt l
  | ge => r.sle l
  | ult => l.ult r
  | ule => l.ule r
  | ugt => r.ult l
  | uge => r.ule l

/-- A word whose upper bits repeat the sign of its low bits, or are zero. -/
def Ir.Ty.Extends (ty : Ir.Ty) (signed : Bool) (w : Word) : Prop := ty.extended signed w = w

/-- Words that are extended as a relation reads them. Equality does not read a sign, but both words are to be extended
in the same way. -/
def CondCode.Reads (cc : CondCode) (ty : Ir.Ty) (l r : Word) : Prop :=
  match cc with
  | lt | le | gt | ge => ty.Extends true l ∧ ty.Extends true r
  | ult | ule | ugt | uge => ty.Extends false l ∧ ty.Extends false r
  | eq | ne => ∃ signed, ty.Extends signed l ∧ ty.Extends signed r

namespace Selection

section Words

variable {ty : Ir.Ty} {w l r : Word}

theorem toInt_of_extends (h : isNarrow ty = true) (hw : ty.Extends true w) : w.toInt = (ty.low w).toInt := by
  rw [← toInt_extended h, hw]

theorem toNat_of_extends (h : isNarrow ty = true) (hw : ty.Extends false w) : w.toNat = (ty.low w).toNat := by
  rw [← toNat_extended h, hw]

theorem beq_low {signed : Bool} (hl : ty.Extends signed l) (hr : ty.Extends signed r) :
    (l == r) = (ty.low l == ty.low r) := by
  rw [Bool.eq_iff_iff, beq_iff_eq, beq_iff_eq]
  refine ⟨congrArg ty.low, fun he => ?_⟩
  rw [← hl, ← hr, Ir.Ty.extended, Ir.Ty.extended, he]

/-- Extended words compare as their low bits do. -/
theorem holds_low (h : isNarrow ty = true) {cc : CondCode} (hr : cc.Reads ty l r) :
    cc.holds l r = cc.holdsAt (ty.low l) (ty.low r) := by
  cases cc with
  | eq =>
    obtain ⟨signed, hl, hr⟩ := hr
    exact beq_low hl hr
  | ne =>
    obtain ⟨signed, hl, hr⟩ := hr
    exact congrArg not (beq_low hl hr)
  | lt | le | gt | ge =>
    simp only [CondCode.holds, CondCode.holdsAt, BitVec.slt, BitVec.sle, toInt_of_extends h hr.1,
      toInt_of_extends h hr.2]
  | ult | ule | ugt | uge =>
    simp only [CondCode.holds, CondCode.holdsAt, BitVec.ult, BitVec.ule, toNat_of_extends h hr.1,
      toNat_of_extends h hr.2]

end Words

end Selection

def Pseudo.goesTo : Store → List Pseudo → Option Ir.BlockId
  | _, [] => none
  | _, .jump target :: _ => some target
  | st, .brCc (.int cc lhs rhs) target :: rest =>
    if cc.holds (st.regs lhs) (rhs.eval st.regs) then some target else goesTo st rest
  | st, m :: rest => (m.eval st).bind (goesTo · rest)

namespace Selection

theorem goesTo_cons {m : Pseudo} {st st' : Store} (h : m.eval st = some st') (ops : List Pseudo) :
    Pseudo.goesTo st (m :: ops) = Pseudo.goesTo st' ops := by
  cases m with
  | jump target => cases h
  | brCc cmp target => cases cmp <;> cases h
  | _ => simp only [Pseudo.goesTo, h, Option.bind_some]

theorem sequential_goesTo : Sequential Pseudo.goesTo := by
  intro st st' ops ops' h
  induction ops generalizing st with
  | nil =>
    cases h
    rfl
  | cons m ops ih =>
    obtain ⟨st1, hm, hrest⟩ := Option.bind_eq_some_iff.mp h
    rw [List.cons_append, goesTo_cons hm, ih st1 hrest]

inductive Consumer
  /-- One or zero. -/
  | set (dst : Ir.Value)
  /-- One of two words. -/
  | choose (dst onTrue onFalse : Ir.Value)
  /-- One of two blocks. -/
  | go (thenBlock elseBlock : Ir.BlockId)

namespace Consumer

def values : Consumer → List Ir.Value
  | set dst => [dst]
  | choose dst onTrue onFalse => [dst, onTrue, onFalse]
  | go .. => []

def Decides (c : Consumer) (cx' : Context) (ops : List Pseudo) (st : Store) (outcome : Bool) : Prop :=
  match c with
  | set dst => ∃ st', Pseudo.evalAll st ops = some st' ∧ cx'.words st' dst = if outcome then 1#32 else 0#32
  | choose dst onTrue onFalse => ∃ st', Pseudo.evalAll st ops = some st' ∧
    cx'.words st' dst = if outcome then cx'.words st onTrue else cx'.words st onFalse
  | go thenBlock elseBlock => Pseudo.goesTo st ops = some (if outcome then thenBlock else elseBlock)

end Consumer

inductive Tests (f : Ir.Function) : Select Unit → CondCode → Ir.Value → Ir.Operand → Consumer → Prop
  | setCc (cc : CondCode) (dst lhs : Ir.Value) (rhs : Ir.Operand) :
    Tests f (selectInst f (.setCc cc dst lhs rhs)) cc lhs rhs (.set dst)
  | selectCc (cc : CondCode) (dst lhs : Ir.Value) (rhs : Ir.Operand) (onTrue onFalse : Ir.Value) :
    Tests f (selectInst f (.selectCc cc dst lhs rhs onTrue onFalse)) cc lhs rhs (.choose dst onTrue onFalse)
  | select (dst cond onTrue onFalse : Ir.Value) :
    Tests f (selectInst f (.select dst cond onTrue onFalse)) .ne cond (.imm 0#32) (.choose dst onTrue onFalse)
  | branchCc (cc : CondCode) (lhs : Ir.Value) (rhs : Ir.Operand) (thenBlock elseBlock : Ir.BlockId) :
    Tests f (selectTerminator f (.branchCc cc lhs rhs thenBlock elseBlock)) cc lhs rhs (.go thenBlock elseBlock)
  | branch (cond : Ir.Value) (thenBlock elseBlock : Ir.BlockId) :
    Tests f (selectTerminator f (.branch cond thenBlock elseBlock)) .ne cond (.imm 0#32) (.go thenBlock elseBlock)

section Compare

variable {f : Ir.Function} {cx cx' : Context} {st : Store} {cc : CondCode} {lhs : Ir.Value} {rhs : Ir.Operand}
  {fused : Fused}

structure Tested (cx : Context) (cc : CondCode) (lhs : Ir.Value) (rhs : Ir.Operand) (fused : Fused) : Prop where
  valid : Valid cx
  sources : ∀ v ∈ binarySources lhs rhs, ∃ r, cx.values.lookup v = some r
  integer : ∀ cmp, fused = .compare cmp → ∃ cc l r, cmp = .int cc l r
  holds : ∀ st, fused.holds st.regs = cc.holds (cx.words st lhs) (rhs.eval (cx.words st))

theorem Tested.keep (h : Tested cx cc lhs rhs fused) (hv : Valid cx')
    (hkeep : ∀ u q, cx.values.lookup u = some q → cx'.values.lookup u = some q) : Tested cx' cc lhs rhs fused := by
  refine ⟨hv, fun v hv => ?_, h.integer, fun st => ?_⟩
  · obtain ⟨r, hr⟩ := h.sources v hv
    exact ⟨r, hkeep _ _ hr⟩
  · have hwords (v : Ir.Value) (hv : v ∈ binarySources lhs rhs) : cx'.words st v = cx.words st v :=
      Context.words_keep (h.sources v hv) hkeep st
    have hrhs : rhs.eval (cx'.words st) = rhs.eval (cx.words st) := by
      cases rhs with
      | value v => exact hwords v (by simp [binarySources, Ir.Operand.values])
      | imm k => rfl
    rw [h.holds, hwords lhs (by simp [binarySources]), hrhs]

theorem compareRhs_makes (hv : Valid cx) (hrhs : ∀ v ∈ rhs.values, ∃ ty, f.valueType v = .ok ty) :
    Makes (compareRhs f rhs) cx st fun r cx' st' => st' = st ∧ Valid cx' ∧
      (∀ u q, cx.values.lookup u = some q → cx'.values.lookup u = some q) ∧
      (∀ v ∈ rhs.values, ∃ r, cx'.values.lookup v = some r) ∧ ∀ st, r.eval st.regs = rhs.eval (cx'.words st) := by
  cases rhs with
  | imm k => exact .pure ⟨rfl, hv, fun _ _ => id, by simp [Ir.Operand.values], fun _ => rfl⟩
  | value v =>
    obtain ⟨_, hty⟩ := hrhs v (by simp [Ir.Operand.values])
    refine (reg_makes hv hty).bind ?_
    rintro r cx' _ ⟨hv', hr, hkeep, rfl⟩
    exact .pure ⟨rfl, hv', hkeep, by simpa [Ir.Operand.values] using ⟨r, hr⟩, fun st => (cx'.words_eq hr).symm⟩

theorem valueCompare_makes (hv : Valid cx) (htypes : ∀ v ∈ binarySources lhs rhs, ∃ ty, f.valueType v = .ok ty) :
    Makes (valueCompare f cc lhs rhs) cx st fun fused cx' st' => st' = st ∧ Tested cx' cc lhs rhs fused := by
  obtain ⟨⟨_, hlhs⟩, hrhs⟩ := List.forall_mem_cons.mp htypes
  refine (reg_makes hv hlhs).bind ?_
  rintro l cx1 _ ⟨hv1, hl, -, rfl⟩
  refine (compareRhs_makes hv1 hrhs).bind ?_
  rintro r cx2 _ ⟨rfl, hv2, hkeep, hregs, hr⟩
  replace hl := hkeep _ _ hl
  refine .pure ⟨rfl, hv2, List.forall_mem_cons.mpr ⟨⟨l, hl⟩, hregs⟩, fun cmp hcmp => (intCompare_regs hcmp).1,
    fun st => ?_⟩
  rw [intCompare_holds, hr, cx2.words_eq hl]

variable {dst : Ir.Value} {thenBlock elseBlock : Ir.BlockId}

/-- A register that is written by the outcome of a compare. -/
theorem Tested.words_set (h : Tested cx cc lhs rhs fused) (hvalues : cx'.values = cx.values) {d : Reg}
    (hd : cx.values.lookup dst = some d) (st1 : Store) (a b : Word) :
    cx'.words (st1.set d (if fused.holds st.regs then a else b)) dst =
      if cc.holds (cx'.words st lhs) (rhs.eval (cx'.words st)) then a else b := by
  rw [cx.words_congr hvalues, cx.words_eq hd, Store.regs_set_self, h.holds]

theorem emitSet_makes {ty : Ir.Ty} (h : Tested cx cc lhs rhs fused) (hdst : f.valueType dst = .ok ty) :
    Makes (emitSet f dst fused) cx st fun _ cx' st' =>
      (∀ v ∈ dst :: binarySources lhs rhs, ∃ r, cx'.values.lookup v = some r) ∧
      cx'.words st' dst = if cc.holds (cx'.words st lhs) (rhs.eval (cx'.words st)) then 1#32 else 0#32 := by
  refine (reg_makes h.valid hdst).bind ?_
  rintro d cx1 st ⟨hv1, hd, hkeep, rfl⟩
  replace h := h.keep hv1 hkeep
  have hregs : ∀ v ∈ dst :: binarySources lhs rhs, ∃ r, cx1.values.lookup v = some r :=
    List.forall_mem_cons.mpr ⟨⟨d, hd⟩, h.sources⟩
  cases fused with
  | constant b => exact .emit rfl fun cx' hvalues _ => ⟨hvalues ▸ hregs, h.words_set hvalues hd st 1#32 0#32⟩
  | compare cmp =>
    obtain ⟨cc', l, r, rfl⟩ := h.integer cmp rfl
    let one := Reg.virt cx1.routine.numVRegs
    let zero := Reg.virt (cx1.routine.newVReg .gpr).2.numVRegs
    let st1 := (st.set one 1#32).set zero 0#32
    have hn := numVRegs_newVReg cx1.routine .gpr
    -- the new registers are not those compared
    have hlater : Later cx1 st cx1 st1 := by
      refine ⟨rfl, Nat.le_refl _, fun k hk => ?_⟩
      rw [Store.regs_set_ne _ (by simp [zero]; omega), Store.regs_set_ne _ (by simp [one]; omega)]
    have hholds : (Fused.compare (.int cc' l r)).holds st1.regs = (Fused.compare (.int cc' l r)).holds st.regs := by
      rw [h.holds, h.holds, hv1.words_later hlater]
    have hone : st1.regs one = 1#32 := by
      rw [Store.regs_set_ne _ (by simp [one, zero]; omega), Store.regs_set_self]
    have hzero : st1.regs zero = 0#32 := Store.regs_set_self ..
    have hselect : (Pseudo.selectCc (.int cc' l r) d one zero).eval st1 =
        some (st1.set d (if (Fused.compare (.int cc' l r)).holds st1.regs then st1.regs one else st1.regs zero)) := rfl
    rw [hholds, hone, hzero] at hselect
    refine ⟨(), _, [.loadImm one 1#32, .loadImm zero 0#32, .selectCc (.int cc' l r) d one zero],
      st1.set d (if (Fused.compare (.int cc' l r)).holds st.regs then 1#32 else 0#32), rfl, ?_, ?_, hregs,
      h.words_set rfl hd st1 1#32 0#32⟩
    · simp only [List.append_assoc]
      rfl
    · exact congrArg (Option.bind · (Pseudo.evalAll · [])) hselect

theorem emitSelect_makes {onTrue onFalse : Ir.Value} (h : Tested cx cc lhs rhs fused)
    (htypes : ∀ v ∈ [dst, onTrue, onFalse], ∃ ty, f.valueType v = .ok ty) :
    Makes (emitSelect f dst fused onTrue onFalse) cx st fun _ cx' st' =>
      (∀ v ∈ [dst, onTrue, onFalse] ++ binarySources lhs rhs, ∃ r, cx'.values.lookup v = some r) ∧
      cx'.words st' dst = if cc.holds (cx'.words st lhs) (rhs.eval (cx'.words st)) then cx'.words st onTrue
        else cx'.words st onFalse := by
  simp only [List.forall_mem_cons] at htypes
  obtain ⟨⟨_, hdst⟩, ⟨_, htrue⟩, ⟨_, hfalse⟩, -⟩ := htypes
  refine (reg_makes h.valid hdst).bind ?_
  rintro d cx1 _ ⟨hv1, hd, hkeep1, rfl⟩
  refine (reg_makes hv1 htrue).bind ?_
  rintro t cx2 _ ⟨hv2, ht, hkeep2, rfl⟩
  refine (reg_makes hv2 hfalse).bind ?_
  rintro e cx3 st ⟨hv3, he, hkeep3, rfl⟩
  replace h := ((h.keep hv1 hkeep1).keep hv2 hkeep2).keep hv3 hkeep3
  replace hd := hkeep3 _ _ (hkeep2 _ _ hd)
  replace ht := hkeep3 _ _ ht
  have hregs : ∀ v ∈ [dst, onTrue, onFalse] ++ binarySources lhs rhs, ∃ r, cx3.values.lookup v = some r := by
    simp only [List.cons_append, List.nil_append, List.forall_mem_cons]
    exact ⟨⟨d, hd⟩, ⟨t, ht⟩, ⟨e, he⟩, h.sources⟩
  have hset {cx' : Context} (hvalues : cx'.values = cx3.values) :
      cx'.words (st.set d (if fused.holds st.regs then st.regs t else st.regs e)) dst =
        if cc.holds (cx'.words st lhs) (rhs.eval (cx'.words st)) then cx'.words st onTrue
        else cx'.words st onFalse := by
    rw [h.words_set hvalues hd, cx3.words_congr hvalues, cx3.words_eq ht, cx3.words_eq he]
  cases fused with
  | constant b =>
    refine .emit ?_ fun cx' hvalues _ => ⟨hvalues ▸ hregs, hset hvalues⟩
    cases b <;> rfl
  | compare cmp =>
    obtain ⟨cc', l, r, rfl⟩ := h.integer cmp rfl
    exact .emit rfl fun cx' hvalues _ => ⟨hvalues ▸ hregs, hset hvalues⟩

theorem emitBranch_finishes (h : Tested cx cc lhs rhs fused) :
    Finishes Pseudo.goesTo (emitBranch fused thenBlock elseBlock) cx st fun cx' target =>
      (∀ v ∈ binarySources lhs rhs, ∃ r, cx'.values.lookup v = some r) ∧
      target = some (if cc.holds (cx'.words st lhs) (rhs.eval (cx'.words st)) then thenBlock else elseBlock) := by
  have htarget : some (if fused.holds st.regs then thenBlock else elseBlock) =
      some (if cc.holds (cx.words st lhs) (rhs.eval (cx.words st)) then thenBlock else elseBlock) := by rw [h.holds]
  cases fused with
  | constant b => exact ⟨_, [.jump (if b then thenBlock else elseBlock)], rfl, rfl, h.sources, htarget⟩
  | compare cmp =>
    obtain ⟨cc', l, r, rfl⟩ := h.integer cmp rfl
    refine ⟨_, [.brCc (.int cc' l r) thenBlock, .jump elseBlock], rfl, ?_, h.sources, ?_⟩
    · exact List.append_assoc ..
    · exact (apply_ite some _ _ _).symm.trans htarget

structure Compares (cc : CondCode) (lhs : Ir.Value) (rhs : Ir.Operand) (c : Consumer) (cx' : Context)
    (ops : List Pseudo) : Prop where
  registers : ∀ v ∈ c.values ++ binarySources lhs rhs, ∃ r, cx'.values.lookup v = some r
  decides : ∀ st, c.Decides cx' ops st (cc.holds (cx'.words st lhs) (rhs.eval (cx'.words st)))

private theorem legal_custom {op : Operation} (hop : op = .setCc ∨ op = .select ∨ op = .brCc) (ty : Ir.Ty) :
    legal op ty = .ok .custom := by
  rcases hop with rfl | rfl | rfl <;> rfl

private theorem setCc_compares (hv : Valid cx)
    (htypes : ∀ v ∈ dst :: binarySources lhs rhs, ∃ ty, f.valueType v = .ok ty) :
    ∃ cx' ops, (setCc f cc dst lhs rhs).run cx = .ok ((), cx') ∧ cx'.out = cx.out ++ ops ∧
      Compares cc lhs rhs (.set dst) cx' ops := by
  obtain ⟨⟨_, hdst⟩, hsources⟩ := List.forall_mem_cons.mp htypes
  obtain ⟨⟨ty, hlhs⟩, -⟩ := List.forall_mem_cons.mp hsources
  have hmakes (st : Store) : Makes (setCc f cc dst lhs rhs) cx st fun _ cx' st' =>
      (∀ v ∈ dst :: binarySources lhs rhs, ∃ r, cx'.values.lookup v = some r) ∧
      cx'.words st' dst = if cc.holds (cx'.words st lhs) (rhs.eval (cx'.words st)) then 1#32 else 0#32 := by
    unfold setCc
    rw [lift_bind hlhs, lift_bind (legal_custom (by simp) ty)]
    refine (valueCompare_makes hv hsources).bind ?_
    rintro fused cx1 _ ⟨rfl, ht⟩
    exact emitSet_makes ht hdst
  obtain ⟨_, cx', ops, hrun, hout, hall⟩ := Makes.uniform hmakes
  obtain ⟨-, -, hregs, -⟩ := hall ⟨fun _ => 0#32, fun _ => 0#32⟩
  refine ⟨cx', ops, hrun, hout, hregs, fun st => ?_⟩
  obtain ⟨st', heval, -, hword⟩ := hall st
  exact ⟨st', heval, hword⟩

private theorem selectCc_compares {onTrue onFalse : Ir.Value} (hv : Valid cx)
    (htypes : ∀ v ∈ [dst, onTrue, onFalse] ++ binarySources lhs rhs, ∃ ty, f.valueType v = .ok ty) :
    ∃ cx' ops, (selectCc f cc dst lhs rhs onTrue onFalse).run cx = .ok ((), cx') ∧ cx'.out = cx.out ++ ops ∧
      Compares cc lhs rhs (.choose dst onTrue onFalse) cx' ops := by
  obtain ⟨hvalues, hsources⟩ := List.forall_mem_append.mp htypes
  obtain ⟨⟨ty, hdst⟩, -⟩ := List.forall_mem_cons.mp hvalues
  have hmakes (st : Store) : Makes (selectCc f cc dst lhs rhs onTrue onFalse) cx st fun _ cx' st' =>
      (∀ v ∈ [dst, onTrue, onFalse] ++ binarySources lhs rhs, ∃ r, cx'.values.lookup v = some r) ∧
      cx'.words st' dst = if cc.holds (cx'.words st lhs) (rhs.eval (cx'.words st)) then cx'.words st onTrue
        else cx'.words st onFalse := by
    unfold selectCc
    rw [lift_bind hdst, lift_bind (legal_custom (by simp) ty)]
    refine (valueCompare_makes hv hsources).bind ?_
    rintro fused cx1 _ ⟨rfl, ht⟩
    exact emitSelect_makes ht hvalues
  obtain ⟨_, cx', ops, hrun, hout, hall⟩ := Makes.uniform hmakes
  obtain ⟨-, -, hregs, -⟩ := hall ⟨fun _ => 0#32, fun _ => 0#32⟩
  refine ⟨cx', ops, hrun, hout, hregs, fun st => ?_⟩
  obtain ⟨st', heval, -, hword⟩ := hall st
  exact ⟨st', heval, hword⟩

private theorem branchCc_compares (hv : Valid cx) (htypes : ∀ v ∈ binarySources lhs rhs, ∃ ty, f.valueType v = .ok ty) :
    ∃ cx' ops, (branchCc f cc lhs rhs thenBlock elseBlock).run cx = .ok ((), cx') ∧ cx'.out = cx.out ++ ops ∧
      Compares cc lhs rhs (.go thenBlock elseBlock) cx' ops := by
  obtain ⟨⟨ty, hlhs⟩, -⟩ := List.forall_mem_cons.mp htypes
  have hfinishes (st : Store) : Finishes Pseudo.goesTo (branchCc f cc lhs rhs thenBlock elseBlock) cx st
      fun cx' target => (∀ v ∈ binarySources lhs rhs, ∃ r, cx'.values.lookup v = some r) ∧
        target = some (if cc.holds (cx'.words st lhs) (rhs.eval (cx'.words st)) then thenBlock else elseBlock) := by
    unfold branchCc
    rw [lift_bind hlhs, lift_bind (legal_custom (by simp) ty)]
    refine (valueCompare_makes hv htypes).finishes sequential_goesTo ?_
    rintro fused cx1 _ ⟨rfl, ht⟩
    exact emitBranch_finishes ht
  obtain ⟨cx', ops, hrun, hout, hall⟩ := Finishes.uniform hfinishes
  exact ⟨cx', ops, hrun, hout, (hall ⟨fun _ => 0#32, fun _ => 0#32⟩).1, fun st => (hall st).2⟩

theorem Tests.compares {x : Select Unit} {c : Consumer} (h : Tests f x cc lhs rhs c) (hv : Valid cx)
    (htypes : ∀ v ∈ c.values ++ binarySources lhs rhs, ∃ ty, f.valueType v = .ok ty) :
    ∃ cx' ops, x.run cx = .ok ((), cx') ∧ cx'.out = cx.out ++ ops ∧ Compares cc lhs rhs c cx' ops := by
  cases h with
  | setCc => exact setCc_compares hv htypes
  | selectCc => exact selectCc_compares hv htypes
  | select => exact selectCc_compares hv htypes
  | branchCc => exact branchCc_compares hv htypes
  | branch => exact branchCc_compares hv htypes

/-- A compare of narrow values, in a setting, a selection or a branch, is selected as operations that decide by the
relation on the whole words in the registers. Where these words are extended as the relation reads them, that is the
relation on the low bits. -/
theorem compare_narrow {x : Select Unit} {c : Consumer} {ty : Ir.Ty} (h : Tests f x cc lhs rhs c) (hv : Valid cx)
    (hlhs : f.valueType lhs = .ok ty) (hn : isNarrow ty = true)
    (htypes : ∀ v ∈ c.values ++ rhs.values, ∃ ty, f.valueType v = .ok ty) :
    ∃ cx' ops, x.run cx = .ok ((), cx') ∧ cx'.out = cx.out ++ ops ∧ Compares cc lhs rhs c cx' ops ∧
      ∀ st, cc.Reads ty (cx'.words st lhs) (rhs.eval (cx'.words st)) →
        c.Decides cx' ops st (cc.holdsAt (ty.low (cx'.words st lhs)) (ty.low (rhs.eval (cx'.words st)))) := by
  obtain ⟨hvalues, hrhs⟩ := List.forall_mem_append.mp htypes
  obtain ⟨cx', ops, hrun, hout, hcompares⟩ :=
    h.compares hv (List.forall_mem_append.mpr ⟨hvalues, List.forall_mem_cons.mpr ⟨⟨ty, hlhs⟩, hrhs⟩⟩)
  refine ⟨cx', ops, hrun, hout, hcompares, fun st hreads => ?_⟩
  rw [← holds_low hn hreads]
  exact hcompares.decides st

def signedBytes : Store := ⟨fun r => if r = .virt 0 then 0xFFFFFF80#32 else 0x7F#32, fun _ => 0#32⟩

theorem compare_narrow_signed : ∃ cx' ops,
    (selectTerminator bytesFunction (.branchCc .lt 0 (.value 1) 1 2)).run ⟨.empty "bytes" 1, {}, [], []⟩ =
      .ok ((), cx') ∧
      cx'.out = ops ∧ cx'.words signedBytes 0 = 0xFFFFFF80#32 ∧ cx'.words signedBytes 1 = 0x7F#32 ∧
      CondCode.lt.holdsAt 0x80#8 0x7F#8 = true ∧ Pseudo.goesTo signedBytes ops = some 1 := by
  have htypes (v : Ir.Value) (hv : v ∈ (Consumer.go 1 2).values ++ Ir.Operand.values (.value 1)) :
      ∃ ty, bytesFunction.valueType v = .ok ty := by
    obtain rfl : v = 1 := by simpa [Consumer.values, Ir.Operand.values] using hv
    exact ⟨.i8, rfl⟩
  have hv : Valid ⟨.empty "bytes" 1, {}, [], []⟩ := ⟨fun _ _ h => (by cases h), fun _ _ _ h => (by cases h)⟩
  obtain ⟨cx', ops, hrun, hout, -, hdecides⟩ := compare_narrow (.branchCc .lt 0 (.value 1) 1 2) hv rfl rfl htypes
  have h0 : cx'.words signedBytes 0 = 0xFFFFFF80#32 := by
    cases hrun
    rfl
  have h1 : cx'.words signedBytes 1 = 0x7F#32 := by
    cases hrun
    rfl
  have hgoes := hdecides signedBytes
  rw [Ir.Operand.eval, h0, h1] at hgoes
  exact ⟨cx', ops, hrun, hout, h0, h1, by decide, hgoes ⟨rfl, rfl⟩⟩

def overflowFunction : Ir.Function where
  name := "overflow"
  valueTypes := [.i8, .i8, .i32]

/-- A byte that an addition wraps around to zero is not found to be equal to zero: the carry stands above it in the
register. -/
theorem compare_narrow_carry : ∃ cx' st',
    (do selectInst overflowFunction (.binary .add 1 0 (.imm 128#32))
        selectInst overflowFunction (.setCc .eq 2 1 (.imm 0#32)) : Select Unit).run ⟨.empty "overflow" 1, {}, [], []⟩ =
      .ok ((), cx') ∧
    Pseudo.evalAll ⟨fun _ => 128#32, fun _ => 0#32⟩ cx'.out = some st' ∧
    CondCode.eq.holdsAt (Ir.Ty.i8.low (cx'.words st' 1)) (Ir.Ty.i8.low 0#32) = true ∧ cx'.words st' 2 = 0#32 :=
  ⟨_, _, rfl, rfl, rfl, rfl⟩

end Compare

end Selection

end DirectPage
