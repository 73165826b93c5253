import DirectPage.Proofs.CallingConvention
import DirectPage.Proofs.OperationValues
import DirectPage.Proofs.SpillSemantics
import DirectPage.Selection

/-! The operations selected for straight-line integer code compute what the code does. -/
namespace DirectPage.Selection

open Allocation (Grown)

section Run

variable {α β : Type} {cx cx' : Context} {k : α → Select β} {b : β} {x : Checked α}

theorem run_bind {x : Select α} (h : (x >>= k).run cx = .ok (b, cx')) :
    ∃ a cx1, x.run cx = .ok (a, cx1) ∧ (k a).run cx1 = .ok (b, cx') := by
  rw [StateT.run_bind] at h
  obtain ⟨⟨a, cx1⟩, hx, hk⟩ := bind_eq_ok.mp h
  exact ⟨a, cx1, hx, hk⟩

theorem run_lift {a : α} (h : (liftM x : Select α).run cx = .ok (a, cx')) : x = .ok a ∧ cx = cx' := by
  cases x with
  | error e => cases h
  | ok b =>
    cases h
    exact ⟨rfl, rfl⟩

/-- A check that comes first. -/
theorem run_check (h : ((liftM x : Select α) >>= k).run cx = .ok (b, cx')) :
    ∃ a, x = .ok a ∧ (k a).run cx = .ok (b, cx') := by
  obtain ⟨a, cx1, hrun, h⟩ := run_bind h
  obtain ⟨hx, rfl⟩ := run_lift hrun
  exact ⟨a, hx, h⟩

end Run

theorem numVRegs_newVReg (f : Routine) (cls : RegClass) : (f.newVReg cls).2.numVRegs = f.numVRegs + 1 := by
  simp [Routine.newVReg, Routine.numVRegs]

/-- A value that was not known changes no other. -/
theorem lookup_cons_of_none {values : List (Ir.Value × Reg)} {u v : Ir.Value} {q r : Reg}
    (hv : values.lookup v = none) (hu : values.lookup u = some q) : ((v, r) :: values).lookup u = some q := by
  have hne : (u == v) = false := by
    rw [beq_eq_false_iff_ne]
    rintro rfl
    rw [hv] at hu
    cases hu
  rw [List.lookup_cons, hne]
  exact hu

structure Valid (cx : Context) : Prop where
  virt : ∀ v r, cx.values.lookup v = some r → ∃ k, r = .virt k ∧ k < cx.routine.numVRegs
  inj : ∀ u v r, cx.values.lookup u = some r → cx.values.lookup v = some r → u = v

structure Steps (cx cx' : Context) (ops : List Pseudo) : Prop where
  valid : Valid cx'
  out : cx'.out = cx.out ++ ops
  plan : cx'.plan = cx.plan
  grown : Grown cx.routine cx'.routine
  values : ∀ v r, cx.values.lookup v = some r → cx'.values.lookup v = some r

section Steps

variable {cx cx' cx'' : Context} {f : Ir.Function} {ops ops' : List Pseudo} {v : Ir.Value} {r : Reg} {ty : Ir.Ty}

theorem Steps.refl (h : Valid cx) : Steps cx cx [] := ⟨h, by simp, rfl, .refl _, fun _ _ h => h⟩

theorem Steps.trans (h : Steps cx cx' ops) (h' : Steps cx' cx'' ops') : Steps cx cx'' (ops ++ ops') where
  valid := h'.valid
  out := by rw [h'.out, h.out, List.append_assoc]
  plan := h'.plan.trans h.plan
  grown := h.grown.trans h'.grown
  values v r hv := h'.values v r (h.values v r hv)

theorem emit_spec {m : Pseudo} (hv : Valid cx) (h : (emit m).run cx = .ok ((), cx')) :
    Steps cx cx' [m] ∧ cx'.values = cx.values ∧ cx'.routine = cx.routine := by
  cases h
  exact ⟨⟨⟨hv.virt, hv.inj⟩, rfl, rfl, .refl _, fun _ _ h => h⟩, rfl, rfl⟩

/-- A new register is the register of no value. -/
theorem Valid.newVReg (hv : Valid cx) (cls : RegClass) : Valid { cx with routine := (cx.routine.newVReg cls).2 } := by
  refine ⟨fun v r hr => ?_, hv.inj⟩
  obtain ⟨k, rfl, hk⟩ := hv.virt v r hr
  exact ⟨k, rfl, by simpa [numVRegs_newVReg] using Nat.lt_succ_of_lt hk⟩

/-- A value may have a new register. -/
theorem Valid.assign (hv : Valid cx) (cls : RegClass) (v : Ir.Value) : Valid { cx with
    routine := (cx.routine.newVReg cls).2, values := (v, .virt cx.routine.numVRegs) :: cx.values } := by
  have hcons {u : Ir.Value} {q : Reg}
      (hq : ((v, Reg.virt cx.routine.numVRegs) :: cx.values).lookup u = some q) :
      (u = v ∧ q = .virt cx.routine.numVRegs) ∨ cx.values.lookup u = some q := by
    rw [List.lookup_cons] at hq
    split at hq
    · next he => exact .inl ⟨by simpa using he, (Option.some.inj hq).symm⟩
    · exact .inr hq
  have hold {u : Ir.Value} (hu : cx.values.lookup u = some (.virt cx.routine.numVRegs)) : False := by
    obtain ⟨k, hk, hlt⟩ := hv.virt u _ hu
    cases hk
    exact Nat.lt_irrefl _ hlt
  refine ⟨fun u q hq => ?_, fun u u' q hu hu' => ?_⟩
  · rcases hcons hq with ⟨-, rfl⟩ | hq
    · exact ⟨_, rfl, by simp [numVRegs_newVReg]⟩
    · exact (hv.newVReg cls).virt u q hq
  · rcases hcons hu with ⟨rfl, rfl⟩ | h1 <;> rcases hcons hu' with ⟨rfl, he⟩ | h2
    · rfl
    · exact (hold h2).elim
    · exact (hold (he ▸ h1)).elim
    · exact hv.inj u u' q h1 h2

theorem temp_spec (hv : Valid cx) (h : (temp .gpr).run cx = .ok (r, cx')) :
    Steps cx cx' [] ∧ cx'.values = cx.values ∧ r = .virt cx.routine.numVRegs ∧
      cx.routine.numVRegs < cx'.routine.numVRegs := by
  cases h
  exact ⟨⟨hv.newVReg .gpr, by simp, rfl, ⟨rfl, rfl, 1, rfl⟩, fun _ _ h => h⟩, rfl, rfl,
    (numVRegs_newVReg cx.routine .gpr).symm ▸ Nat.lt_succ_self _⟩

theorem isFloat_word (h : isWord ty = true) : ty.isFloat = false := by
  cases ty with
  | i32 | ptr => rfl
  | _ => cases h

private theorem bankOf_word (h : isWord ty = true) : bankOf ty = .gpr := by
  rw [bankOf, isFloat_word h]
  rfl

variable (hw : ∀ ty ∈ f.valueTypes, isWord ty = true)
include hw

theorem isWord_of_valueType (h : f.valueType v = .ok ty) : isWord ty = true := by
  rw [Ir.Function.valueType] at h
  split at h
  · next ht =>
    cases h
    exact hw _ (List.mem_of_getElem? ht)
  · cases h

theorem reg_spec (hv : Valid cx) (h : (reg f v).run cx = .ok (r, cx')) :
    Steps cx cx' [] ∧ cx'.values.lookup v = some r := by
  obtain ⟨_, _, hget, h⟩ := run_bind h
  cases hget
  split at h
  · next hr =>
    cases h
    exact ⟨.refl hv, hr⟩
  · next hnone =>
    obtain ⟨ty, hword, h⟩ := run_check h
    rw [bankOf_word (isWord_of_valueType hw hword)] at h
    cases h
    refine ⟨⟨hv.assign .gpr v, by simp, rfl, ⟨rfl, rfl, 1, rfl⟩, fun u q hu => ?_⟩, List.lookup_cons_self⟩
    exact (lookup_cons_of_none hnone hu :)

end Steps

def Holds (known : List Ir.Value) (values : List (Ir.Value × Reg)) (st : Store) (env : Ir.Env) : Prop :=
  ∀ v ∈ known, ∃ r, values.lookup v = some r ∧ st.regs r = env v

section Holds

variable {known : List Ir.Value} {values values' : List (Ir.Value × Reg)} {st : Store} {env : Ir.Env}
  {cx cx' : Context} {v : Ir.Value} {r : Reg} {w : Word}

theorem Holds.read (h : Holds known values st env) (hv : v ∈ known) (hr : values.lookup v = some r) :
    st.regs r = env v := by
  obtain ⟨q, hq, he⟩ := h v hv
  cases hr.symm.trans hq
  exact he

theorem Holds.steps {ops : List Pseudo} (h : Holds known cx.values st env) (hs : Steps cx cx' ops) :
    Holds known cx'.values st env := by
  intro v hv
  obtain ⟨r, hr, he⟩ := h v hv
  exact ⟨r, hs.values v r hr, he⟩

/-- Other registers may change. -/
theorem Holds.set_temp (h : Holds known cx.values st env) (hv : Valid cx) {t : Nat}
    (ht : cx.routine.numVRegs ≤ t) : Holds known cx.values (st.set (.virt t) w) env := by
  intro v hk
  obtain ⟨r, hr, he⟩ := h v hk
  obtain ⟨k, rfl, hlt⟩ := hv.virt v r hr
  refine ⟨_, hr, ?_⟩
  rw [Store.regs_set_ne, he]
  intro hkt
  have := Reg.virt.inj hkt
  omega

theorem Holds.set_phys (h : Holds known cx.values st env) (hv : Valid cx) (q : Register) :
    Holds known cx.values (st.set (.phys q) w) env := by
  intro v hk
  obtain ⟨r, hr, he⟩ := h v hk
  obtain ⟨k, rfl, -⟩ := hv.virt v r hr
  exact ⟨_, hr, by rw [Store.regs_set_ne _ (by simp), he]⟩

theorem Holds.assign (h : Holds known cx.values st env) (hv : Valid cx) (hr : cx.values.lookup v = some r) :
    Holds (v :: known) cx.values (st.set r w) (env.set v w) := by
  intro u hu
  by_cases he : u = v
  · subst he
    exact ⟨r, hr, by simp⟩
  · obtain ⟨q, hq, hw⟩ := h u (by simpa [he] using hu)
    have hne : q ≠ r := fun hqr => he (hv.inj u v q hq (hqr ▸ hr))
    exact ⟨q, hq, by rw [Store.regs_set_ne _ hne, Ir.Env.set_ne _ he, hw]⟩

end Holds

structure Implements (known : List Ir.Value) (inst : Ir.Inst) (cx cx' : Context) (ops : List Pseudo) : Prop where
  steps : Steps cx cx' ops
  fits : ∀ m ∈ ops, m.Fits cx.plan.objects cx'.routine.numVRegs
  computes : ∀ st env, Holds known cx.values st env →
    Option.Rel (fun env' st' => Holds (inst.defs ++ known) cx'.values st' env') (inst.eval env)
      (Pseudo.evalAll st ops)

section Inst

variable {known : List Ir.Value} {cx cx1 cx' : Context} {f : Ir.Function} {m : Pseudo} {st : Store}
  {env : Ir.Env} {dst v : Ir.Value} {d r : Reg}

/-- Operations on registers of values and on new ones. -/
theorem fits_of_virt {objects : List FrameObject} {n : Nat} (hw : m.isWordOp = true) (hs : m.source? = none)
    (ho : m.object? = none) (hr : ∀ r ∈ m.regs, ∃ k, r = .virt k ∧ k < n) : m.Fits objects n where
  word := hw
  below r hm := by
    obtain ⟨k, rfl, hk⟩ := hr r hm
    exact hk
  args q hq := by
    obtain ⟨k, hk, -⟩ := hr _ hq
    cases hk
  source i hi := by rw [hs] at hi; cases hi
  object i hi := by rw [ho] at hi; cases hi

/-- An operation that writes the register of a value assigns it. -/
theorem assign_rel {x : Option Word} (hv : Valid cx) (hh : Holds known cx.values st env)
    (hd : cx.values.lookup dst = some d) (hdst : m.dst? = some d) (ho : m.object? = none)
    (hres : m.result st = x) :
    Option.Rel (fun env' st' => Holds (dst :: known) cx.values st' env') (x.map (env.set dst))
      (Pseudo.evalAll st [m]) := by
  rw [Pseudo.evalAll_cons, Pseudo.eval, hres]
  cases x with
  | none => exact .none
  | some w =>
    have hcommit : m.commit st w = st.set d w := by simp only [Pseudo.commit, ho, hdst]
    simp only [Option.map_some, Option.bind_some, hcommit, Pseudo.evalAll_nil]
    exact .some (hh.assign hv hd)

variable {inst : Ir.Inst} {rhs : Ir.Operand} {lhs : Ir.Value} {cc : CondCode}

/-- An instruction whose last operation writes the register of its value. -/
theorem implements_last {pre : List Pseudo} (hs : Steps cx cx1 pre)
    (hpre : ∀ x ∈ pre, x.Fits cx.plan.objects cx1.routine.numVRegs) (he : (emit m).run cx1 = .ok ((), cx'))
    (hdefs : inst.defs = [dst]) (hd : cx1.values.lookup dst = some d) (hdst : m.dst? = some d)
    (ho : m.object? = none) (hm : m.isWordOp = true ∧ m.source? = none)
    (hregs : ∀ r ∈ m.regs, ∃ k, r = .virt k ∧ k < cx1.routine.numVRegs)
    (heval : ∀ st env, Holds known cx.values st env → ∃ st1, Pseudo.evalAll st pre = some st1 ∧
      Holds known cx1.values st1 env ∧ inst.eval env = (m.result st1).map (env.set dst)) :
    Implements known inst cx cx' (pre ++ [m]) := by
  obtain ⟨hs', hvals, hroutine⟩ := emit_spec hs.valid he
  refine ⟨hs.trans hs', fun x hx => ?_, fun st env hh => ?_⟩
  · rw [hroutine]
    rcases List.mem_append.mp hx with hx | hx
    · exact hpre x hx
    · rw [List.mem_singleton.mp hx]
      exact fits_of_virt hm.1 hm.2 ho hregs
  · obtain ⟨st1, h1, hh1, hi⟩ := heval st env hh
    rw [Pseudo.evalAll_append, h1, hi, hdefs, hvals]
    exact assign_rel hs.valid hh1 hd hdst ho rfl

theorem implements_one (hs : Steps cx cx1 []) (he : (emit m).run cx1 = .ok ((), cx'))
    (hdefs : inst.defs = [dst]) (hd : cx1.values.lookup dst = some d) (hdst : m.dst? = some d)
    (ho : m.object? = none) (hm : m.isWordOp = true ∧ m.source? = none)
    (hregs : ∀ r ∈ m.regs, ∃ v, cx1.values.lookup v = some r)
    (heval : ∀ st env, Holds known cx1.values st env → inst.eval env = (m.result st).map (env.set dst)) :
    Implements known inst cx cx' [m] :=
  implements_last hs (by simp) he hdefs hd hdst ho hm
    (fun r hr => by
      obtain ⟨v, hv⟩ := hregs r hr
      exact hs.valid.virt v r hv)
    fun st env hh => ⟨st, rfl, hh.steps hs, heval st env (hh.steps hs)⟩

variable (hw : ∀ ty ∈ f.valueTypes, isWord ty = true) (hv : Valid cx) {src onFalse onTrue : Ir.Value} {op : Ir.BinOp}
include hw hv

theorem const_spec {value : Word} (h : (const f dst value).run cx = .ok ((), cx')) :
    ∃ ops, Implements known (.const dst value) cx cx' ops := by
  obtain ⟨ty, -, h⟩ := run_check h
  obtain ⟨_, -, h⟩ := run_check h
  obtain ⟨d, cx1, hd, h⟩ := run_bind h
  obtain ⟨hs, hd⟩ := reg_spec hw hv hd
  exact ⟨_, implements_one hs h rfl hd rfl rfl ⟨rfl, rfl⟩
    (fun r hr => ⟨dst, by rw [hd, List.mem_singleton.mp hr]⟩) fun _ _ _ => rfl⟩

theorem copy_spec (hk : src ∈ known) (h : (copy f dst src).run cx = .ok ((), cx')) :
    ∃ ops, Implements known (.copy dst src) cx cx' ops := by
  obtain ⟨dt, hdt, h⟩ := run_check h
  obtain ⟨st, hst, h⟩ := run_check h
  have hfloat : ¬ dt.isFloat ≠ st.isFloat := by
    rw [isFloat_word (isWord_of_valueType hw hdt), isFloat_word (isWord_of_valueType hw hst)]
    simp
  rw [if_neg hfloat] at h
  obtain ⟨d, cx1, hd, h⟩ := run_bind h
  obtain ⟨hs, hd⟩ := reg_spec hw hv hd
  obtain ⟨s, cx2, hsrc, h⟩ := run_bind h
  obtain ⟨hs', hsrc⟩ := reg_spec hw hs.valid hsrc
  refine ⟨_, implements_one (hs.trans hs') h rfl (hs'.values _ _ hd) rfl rfl ⟨rfl, rfl⟩ (fun r hr => ?_)
    fun st env hh => ?_⟩
  · simp only [Pseudo.regs, List.mem_cons, List.not_mem_nil, or_false] at hr
    rcases hr with rfl | rfl
    · exact ⟨dst, hs'.values _ _ hd⟩
    · exact ⟨src, hsrc⟩
  · simp only [Ir.Inst.eval, Pseudo.result, hh.read hk hsrc, Option.map_some]

theorem unary_spec {op : Ir.UnOp} (hk : src ∈ known) (h : (unary f op dst src).run cx = .ok ((), cx')) :
    ∃ ops, Implements known (.unary op dst src) cx cx' ops := by
  obtain ⟨ty, -, h⟩ := run_check h
  obtain ⟨_, -, h⟩ := run_check h
  obtain ⟨d, cx1, hd, h⟩ := run_bind h
  obtain ⟨hs, hd⟩ := reg_spec hw hv hd
  obtain ⟨s, cx2, hsrc, h⟩ := run_bind h
  obtain ⟨hs', hsrc⟩ := reg_spec hw hs.valid hsrc
  refine ⟨_, implements_one (hs.trans hs') h rfl (hs'.values _ _ hd) rfl rfl ⟨rfl, rfl⟩ (fun r hr => ?_)
    fun st env hh => ?_⟩
  · simp only [Pseudo.regs, List.mem_cons, List.not_mem_nil, or_false] at hr
    rcases hr with rfl | rfl
    · exact ⟨dst, hs'.values _ _ hd⟩
    · exact ⟨src, hsrc⟩
  · simp only [Ir.Inst.eval, Pseudo.result, hh.read hk hsrc, unaryOp_eval, Option.map_some]

def Source.eval (regs : Reg → Word) : Source → Word
  | .reg r => regs r
  | .imm k => k

def Source.regs : Source → List Reg
  | .reg r => [r]
  | .imm _ => []

omit hw hv in
theorem amount_eval (src : Source) (regs : Reg → Word) : src.amount.eval regs = (src.eval regs).toNat % 32 := by
  cases src with
  | reg r => rfl
  | imm k =>
    simp only [Source.amount, ShiftAmount.eval, Source.eval, UInt8.toNat_ofNat']
    omega

omit hv in
theorem source_spec {src : Source} (hv : Valid cx) (hk : ∀ v ∈ rhs.values, v ∈ known)
    (h : (source f rhs).run cx = .ok (src, cx')) :
    Steps cx cx' [] ∧ (∀ r ∈ src.regs, ∃ v, cx'.values.lookup v = some r) ∧
      ∀ st env, Holds known cx'.values st env → src.eval st.regs = rhs.eval env := by
  cases rhs with
  | value v =>
    obtain ⟨r, cx1, hr, h⟩ := run_bind h
    obtain ⟨hs, hr⟩ := reg_spec hw hv hr
    cases h
    refine ⟨hs, fun q hq => ⟨v, by rw [hr, List.mem_singleton.mp hq]⟩, fun st env hh => ?_⟩
    exact hh.read (hk v (by simp [Ir.Operand.values])) hr
  | imm k =>
    cases h
    exact ⟨.refl hv, by simp [Source.regs], fun _ _ _ => rfl⟩

omit hw hv in
private theorem legal_binary {ty : Ir.Ty} {act : Action} (hty : isWord ty = true)
    (h : legal (.binary op) ty = .ok act) : act = .legal := by
  simp only [legal, action, action?, binaryAction?, hty, if_true] at h
  cases h
  rfl

theorem binary_spec (hl : lhs ∈ known) (hr : ∀ v ∈ rhs.values, v ∈ known)
    (h : (binary f op dst lhs rhs).run cx = .ok ((), cx')) :
    ∃ ops, Implements known (.binary op dst lhs rhs) cx cx' ops := by
  obtain ⟨ty, hty, h⟩ := run_check h
  obtain ⟨act, hact, h⟩ := run_check h
  obtain rfl := legal_binary (isWord_of_valueType hw hty) hact
  obtain ⟨d, cx1, hd, h⟩ := run_bind h
  obtain ⟨hs1, hd⟩ := reg_spec hw hv hd
  obtain ⟨l, cx2, hlhs, h⟩ := run_bind h
  obtain ⟨hs2, hlhs⟩ := reg_spec hw hs1.valid hlhs
  obtain ⟨src, cx3, hsrc, h⟩ := run_bind h
  obtain ⟨hs3, hregs, hsrc⟩ := source_spec hw hs2.valid hr hsrc
  have hs : Steps cx cx3 [] := (hs1.trans hs2).trans hs3
  replace hd := hs3.values _ _ (hs2.values _ _ hd)
  replace hlhs := hs3.values _ _ hlhs
  simp only [reduceCtorEq, if_false] at h
  obtain ⟨⟨l', src'⟩, cx4, hpure, h⟩ := run_bind h
  cases hpure
  dsimp only at h
  have hread {st : Store} {env : Ir.Env} (hh : Holds known cx3.values st env) :
      Ir.Inst.eval env (.binary op dst lhs rhs) = (op.eval (st.regs l) (src.eval st.regs)).map (env.set dst) := by
    rw [Ir.Inst.eval, hh.read hl hlhs, hsrc st env hh]
  have hmem {r : Reg} (hr : r ∈ d :: l :: src.regs) : ∃ v, cx3.values.lookup v = some r := by
    rcases List.mem_cons.mp hr with rfl | hr
    · exact ⟨dst, hd⟩
    · rcases List.mem_cons.mp hr with rfl | hr
      · exact ⟨lhs, hlhs⟩
      · exact hregs r hr
  split at h
  · next alu _ _ halu =>
    cases src with
    | reg r =>
      refine ⟨_, implements_one hs h rfl hd rfl rfl ⟨rfl, rfl⟩ (fun _ hr => hmem hr) fun st env hh => ?_⟩
      rw [hread hh, aluOp?_eval halu]
      rfl
    | imm k =>
      simp only [emitAlu] at h
      split at h
      · next hsub =>
        refine ⟨_, implements_one hs h rfl hd rfl rfl ⟨rfl, rfl⟩ (fun _ hr => hmem hr) fun st env hh => ?_⟩
        rw [hread hh, aluOp?_eval halu, hsub.1]
        simp only [AluOp.eval, Source.eval, Pseudo.result, BitVec.sub_eq_add_neg]
      · refine ⟨_, implements_one hs h rfl hd rfl rfl ⟨rfl, rfl⟩ (fun _ hr => hmem hr) fun st env hh => ?_⟩
        rw [hread hh, aluOp?_eval halu]
        rfl
  · next kind _ hkind =>
    have hregs : (Pseudo.shift kind d l src.amount).regs = d :: l :: src.regs := by cases src <;> rfl
    refine ⟨_, implements_one hs h rfl hd rfl rfl ⟨rfl, rfl⟩ (fun _ hr => hmem (hregs ▸ hr)) fun st env hh => ?_⟩
    rw [hread hh, shiftKind?_eval hkind, Pseudo.result, amount_eval]
  · next mulDiv _ _ hmul =>
    obtain ⟨t, cx4, ht, h⟩ := run_bind h
    cases src with
    | reg r =>
      cases ht
      refine ⟨_, implements_one hs h rfl hd rfl rfl ⟨rfl, rfl⟩ (fun _ hr => hmem hr) fun st env hh => ?_⟩
      rw [hread hh, mulDivOp?_eval hmul]
      rfl
    | imm k =>
      obtain ⟨t', cx5, htemp, ht⟩ := run_bind ht
      obtain ⟨hs4, hvals4, rfl, hlt⟩ := temp_spec hs.valid htemp
      obtain ⟨_, cx6, hemit, ht⟩ := run_bind ht
      obtain ⟨hs5, hvals5, hroutine⟩ := emit_spec hs4.valid hemit
      cases ht
      have hvals : cx4.values = cx3.values := hvals5.trans hvals4
      rw [← hroutine] at hlt
      refine ⟨_, implements_last (d := d) ((hs.trans hs4).trans hs5) (fun x hx => ?_) h rfl (by rw [hvals, hd]) rfl rfl
        ⟨rfl, rfl⟩ (fun r hr => ?_) fun st env hh => ?_⟩
      · obtain rfl : x = .loadImm (.virt cx3.routine.numVRegs) k := by simpa using hx
        exact fits_of_virt rfl rfl rfl fun r hr => ⟨_, List.mem_singleton.mp hr, hlt⟩
      · rcases List.mem_cons.mp hr with rfl | hr
        · exact hs5.valid.virt dst _ (by rw [hvals, hd])
        · rcases List.mem_cons.mp hr with rfl | hr
          · exact hs5.valid.virt lhs _ (by rw [hvals, hlhs])
          · exact ⟨_, List.mem_singleton.mp hr, hlt⟩
      · have hh1 := (hh.steps hs).set_temp (w := k) hs.valid (Nat.le_refl _)
        refine ⟨st.set (.virt cx3.routine.numVRegs) k, rfl, by rw [hvals]; exact hh1, ?_⟩
        rw [hread hh1, mulDivOp?_eval hmul, Pseudo.result, Store.regs_set_self]
        rfl
  · cases h

omit hv in
theorem valueCompare_spec {fused : Fused} (hv : Valid cx) (hl : lhs ∈ known) (hr : ∀ v ∈ rhs.values, v ∈ known)
    (h : (valueCompare f cc lhs rhs).run cx = .ok (fused, cx')) :
    Steps cx cx' [] ∧
      (∀ cmp, fused = .compare cmp → (∃ cc' l r, cmp = .int cc' l r) ∧
        ∀ r ∈ cmp.regs, ∃ v, cx'.values.lookup v = some r) ∧
      ∀ cx2 ops st env, Steps cx' cx2 ops → Holds known cx2.values st env →
        fused.holds st.regs = cc.holds (env lhs) (rhs.eval env) := by
  obtain ⟨l, cx1, hlhs, h⟩ := run_bind h
  obtain ⟨hs1, hlhs⟩ := reg_spec hw hv hlhs
  obtain ⟨right, cx2, hright, h⟩ := run_bind h
  cases h
  have hrhs : Steps cx1 cx' [] ∧ (∀ r ∈ (Compare.int cc l right).regs, ∃ v, cx'.values.lookup v = some r) ∧
      ∀ cx2 ops st env, Steps cx' cx2 ops → Holds known cx2.values st env →
        right.eval st.regs = rhs.eval env := by
    cases rhs with
    | value v =>
      obtain ⟨r, cx2, hrun, hright⟩ := run_bind hright
      obtain ⟨hs2, hreg⟩ := reg_spec hw hs1.valid hrun
      cases hright
      refine ⟨hs2, fun q hq => ?_, fun cx2 ops st env hs hh =>
        hh.read (hr v (by simp [Ir.Operand.values])) (hs.values _ _ hreg)⟩
      rcases List.mem_cons.mp hq with rfl | hq
      · exact ⟨lhs, hs2.values _ _ hlhs⟩
      · exact ⟨v, by rw [hreg, List.mem_singleton.mp hq]⟩
    | imm k =>
      cases hright
      exact ⟨.refl hs1.valid, fun q hq => ⟨lhs, by rw [hlhs, List.mem_singleton.mp hq]⟩,
        fun _ _ _ _ _ _ => rfl⟩
  obtain ⟨hs2, hregs, hright⟩ := hrhs
  refine ⟨hs1.trans hs2, fun cmp hcmp => ?_, fun cx2 ops st env hs hh => ?_⟩
  · obtain ⟨hint, hsub⟩ := intCompare_regs hcmp
    exact ⟨hint, fun r hr => hregs r (hsub r hr)⟩
  · rw [intCompare_holds, hh.read hl (hs.values _ _ (hs2.values _ _ hlhs)), hright cx2 ops st env hs hh]

theorem selectCc_spec (hl : lhs ∈ known) (hr : ∀ v ∈ rhs.values, v ∈ known) (ht : onTrue ∈ known)
    (he : onFalse ∈ known) (h : (selectCc f cc dst lhs rhs onTrue onFalse).run cx = .ok ((), cx')) :
    ∃ ops, Implements known (.selectCc cc dst lhs rhs onTrue onFalse) cx cx' ops := by
  obtain ⟨ty, -, h⟩ := run_check h
  obtain ⟨_, -, h⟩ := run_check h
  obtain ⟨fused, cx1, hfused, h⟩ := run_bind h
  obtain ⟨hs1, hcmp, hholds⟩ := valueCompare_spec hw hv hl hr hfused
  obtain ⟨d, cx2, hd, h⟩ := run_bind h
  obtain ⟨hs2, hd⟩ := reg_spec hw hs1.valid hd
  obtain ⟨t, cx3, htrue, h⟩ := run_bind h
  obtain ⟨hs3, htrue⟩ := reg_spec hw hs2.valid htrue
  obtain ⟨e, cx4, hfalse, h⟩ := run_bind h
  obtain ⟨hs4, hfalse⟩ := reg_spec hw hs3.valid hfalse
  have hs : Steps cx cx4 [] := ((hs1.trans hs2).trans hs3).trans hs4
  replace hd := hs4.values _ _ (hs3.values _ _ hd)
  replace htrue := hs4.values _ _ htrue
  have hvalue {st : Store} {env : Ir.Env} (hh : Holds known cx4.values st env) :
      Ir.Inst.eval env (.selectCc cc dst lhs rhs onTrue onFalse) =
        some (env.set dst (if fused.holds st.regs then st.regs t else st.regs e)) := by
    rw [Ir.Inst.eval, hholds cx4 _ st env ((hs2.trans hs3).trans hs4) hh, hh.read ht htrue, hh.read he hfalse]
  have hmem {r : Reg} (hr : r ∈ [d, t, e]) : ∃ v, cx4.values.lookup v = some r := by
    simp only [List.mem_cons, List.not_mem_nil, or_false] at hr
    rcases hr with rfl | rfl | rfl
    · exact ⟨dst, hd⟩
    · exact ⟨onTrue, htrue⟩
    · exact ⟨onFalse, hfalse⟩
  cases fused with
  | constant b =>
    refine ⟨_, implements_one hs h rfl hd rfl rfl ⟨rfl, rfl⟩ (fun r hr => hmem ?_) fun st env hh => ?_⟩
    · rcases List.mem_cons.mp hr with rfl | hr
      · simp
      · rw [List.mem_singleton.mp hr]
        cases b <;> simp
    · rw [hvalue hh]
      cases b <;> rfl
  | compare cmp =>
    obtain ⟨⟨cc', l, right, rfl⟩, hregs⟩ := hcmp cmp rfl
    refine ⟨_, implements_one hs h rfl hd rfl rfl ⟨rfl, rfl⟩ (fun r hr => ?_) fun st env hh => ?_⟩
    · rcases List.mem_append.mp hr with hr | hr
      · obtain ⟨v, hv⟩ := hregs r hr
        exact ⟨v, hs4.values _ _ (hs3.values _ _ (hs2.values _ _ hv))⟩
      · exact hmem hr
    · rw [hvalue hh]
      rfl

theorem select_spec {cond : Ir.Value} (hc : cond ∈ known) (ht : onTrue ∈ known) (he : onFalse ∈ known)
    (h : (select f dst cond onTrue onFalse).run cx = .ok ((), cx')) :
    ∃ ops, Implements known (.select dst cond onTrue onFalse) cx cx' ops := by
  obtain ⟨ops, hs, hfits, heval⟩ := selectCc_spec hw hv hc (by simp [Ir.Operand.values]) ht he h
  have hsame (env : Ir.Env) : Ir.Inst.eval env (.select dst cond onTrue onFalse) =
      Ir.Inst.eval env (.selectCc .ne dst cond (.imm 0#32) onTrue onFalse) := by
    simp only [Ir.Inst.eval, CondCode.holds, Ir.Operand.eval]
    by_cases hz : env cond = 0#32 <;> simp [hz]
  exact ⟨ops, hs, hfits, fun st env hh => hsame env ▸ heval st env hh⟩

theorem setCc_spec (hl : lhs ∈ known) (hr : ∀ v ∈ rhs.values, v ∈ known)
    (h : (setCc f cc dst lhs rhs).run cx = .ok ((), cx')) :
    ∃ ops, Implements known (.setCc cc dst lhs rhs) cx cx' ops := by
  obtain ⟨ty, -, h⟩ := run_check h
  obtain ⟨_, -, h⟩ := run_check h
  obtain ⟨fused, cx1, hfused, h⟩ := run_bind h
  obtain ⟨hs1, hcmp, hholds⟩ := valueCompare_spec hw hv hl hr hfused
  obtain ⟨d, cx2, hd, h⟩ := run_bind h
  obtain ⟨hs2, hd⟩ := reg_spec hw hs1.valid hd
  have hs : Steps cx cx2 [] := hs1.trans hs2
  cases fused with
  | constant b =>
    refine ⟨_, implements_one hs h rfl hd rfl rfl ⟨rfl, rfl⟩ (fun r hr => ⟨dst, ?_⟩) fun st env hh => ?_⟩
    · rw [hd, List.mem_singleton.mp hr]
    · rw [Ir.Inst.eval, ← hholds cx2 _ st env hs2 hh]
      rfl
  | compare cmp =>
    obtain ⟨⟨cc', l, right, rfl⟩, hregs⟩ := hcmp cmp rfl
    obtain ⟨one, cx3, hone, h⟩ := run_bind h
    obtain ⟨hs3, hvals3, rfl, hlt3⟩ := temp_spec hs.valid hone
    obtain ⟨zero, cx4, hzero, h⟩ := run_bind h
    obtain ⟨hs4, hvals4, rfl, hlt4⟩ := temp_spec hs3.valid hzero
    obtain ⟨_, cx5, hemit5, h⟩ := run_bind h
    obtain ⟨hs5, hvals5, hroutine5⟩ := emit_spec hs4.valid hemit5
    obtain ⟨_, cx6, hemit6, h⟩ := run_bind h
    obtain ⟨hs6, hvals6, hroutine6⟩ := emit_spec hs5.valid hemit6
    have hvals : cx6.values = cx2.values := by rw [hvals6, hvals5, hvals4, hvals3]
    have hroutine : cx6.routine = cx4.routine := by rw [hroutine6, hroutine5]
    rw [← hroutine] at hlt4
    have hpre := (((hs.trans hs3).trans hs4).trans hs5).trans hs6
    have hlt : cx2.routine.numVRegs < cx6.routine.numVRegs := Nat.lt_trans hlt3 hlt4
    refine ⟨_, implements_last (d := d) hpre (fun x hx => ?_) h rfl (by rw [hvals, hd]) rfl rfl ⟨rfl, rfl⟩
      (fun r hr => ?_) fun st env hh => ?_⟩
    · simp only [List.append_nil, List.nil_append, List.cons_append, List.mem_cons, List.not_mem_nil, or_false] at hx
      rcases hx with rfl | rfl
      · exact fits_of_virt rfl rfl rfl fun r hr => ⟨_, List.mem_singleton.mp hr, hlt⟩
      · exact fits_of_virt rfl rfl rfl fun r hr => ⟨_, List.mem_singleton.mp hr, hlt4⟩
    · have hvalue {v : Ir.Value} (hr : cx2.values.lookup v = some r) :
          ∃ k, r = .virt k ∧ k < cx6.routine.numVRegs := hs6.valid.virt v r (by rw [hvals, hr])
      rcases List.mem_append.mp hr with hr | hr
      · obtain ⟨v, hv⟩ := hregs r hr
        exact hvalue (hs2.values _ _ hv)
      · simp only [List.mem_cons, List.not_mem_nil, or_false] at hr
        rcases hr with rfl | rfl | rfl
        · exact hvalue hd
        · exact ⟨_, rfl, hlt⟩
        · exact ⟨_, rfl, hlt4⟩
    · have hh1 : Holds known cx2.values
          ((st.set (.virt cx2.routine.numVRegs) 1#32).set (.virt cx3.routine.numVRegs) 0#32) env :=
        ((hh.steps hs).set_temp hs.valid (Nat.le_refl _)).set_temp hs.valid (Nat.le_of_lt hlt3)
      refine ⟨(st.set (.virt cx2.routine.numVRegs) 1#32).set (.virt cx3.routine.numVRegs) 0#32, rfl,
        by rw [hvals]; exact hh1, ?_⟩
      have hne : Reg.virt cx2.routine.numVRegs ≠ .virt cx3.routine.numVRegs := fun he =>
        Nat.ne_of_lt hlt3 (Reg.virt.inj he)
      rw [Ir.Inst.eval, ← hholds cx2 _ _ env hs2 hh1]
      simp only [Pseudo.result, Store.regs_set_self, Store.regs_set_ne _ hne, Option.map_some]
      rfl

theorem selectInst_spec (hi : inst.isStraight = true) (hu : ∀ v ∈ inst.uses, v ∈ known)
    (h : (selectInst f inst).run cx = .ok ((), cx')) : ∃ ops, Implements known inst cx cx' ops := by
  cases inst with
  | const dst value => exact const_spec hw hv h
  | copy dst src => exact copy_spec hw hv (hu src (by simp [Ir.Inst.uses])) h
  | binary op dst lhs rhs =>
    exact binary_spec hw hv (hu lhs (by simp [Ir.Inst.uses])) (fun v hv => hu v (by simp [Ir.Inst.uses, hv])) h
  | unary op dst src => exact unary_spec hw hv (hu src (by simp [Ir.Inst.uses])) h
  | setCc cc dst lhs rhs =>
    exact setCc_spec hw hv (hu lhs (by simp [Ir.Inst.uses])) (fun v hv => hu v (by simp [Ir.Inst.uses, hv])) h
  | select dst cond onTrue onFalse =>
    exact select_spec hw hv (hu cond (by simp [Ir.Inst.uses])) (hu onTrue (by simp [Ir.Inst.uses]))
      (hu onFalse (by simp [Ir.Inst.uses])) h
  | selectCc cc dst lhs rhs onTrue onFalse =>
    exact selectCc_spec hw hv (hu lhs (by simp [Ir.Inst.uses])) (fun v hv => hu v (by simp [Ir.Inst.uses, hv]))
      (hu onTrue (by simp [Ir.Inst.uses])) (hu onFalse (by simp [Ir.Inst.uses])) h
  | _ => cases hi

end Inst

end DirectPage.Selection
