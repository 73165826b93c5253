import DirectPage.Proofs.Layout
import DirectPage.Proofs.Selects

/-! The rules of selection for instructions, one by one: each keeps to its scope.

Operands that the checks of a function look at are in the right bank already. For the others that is a hypothesis,
which only matters where banks are asked for. -/
namespace DirectPage.Selection

abbrev Lowers (f : Ir.Function) (S : Scope) (dyn : Bool) (strict P : Prop) (x : Select Unit) : Prop :=
  Selects f S dyn (Straight S dyn strict) P (fun _ => True) x

section Rules

variable {f : Ir.Function} {S : Scope} {dyn : Bool} {strict P : Prop} {G : Pseudo → Prop} {β : Type} {Q : β → Prop}
  {op : Operation} {s : Ir.SlotId} {depth : Nat} {fused : Fused} {onFalse onTrue : Ir.Value}

def Source.General (S : Scope) (strict : Prop) : Source → Prop
  | reg r => S.Meets strict .general r
  | imm _ => True

theorem selects_source {operand : Ir.Operand} (hv : ∀ v ∈ operand.values, f.Typed v)
    (h : strict → ∀ v ∈ operand.values, f.isFloat v = false) :
    Selects f S dyn G P (Source.General S strict) (source f operand) := by
  cases operand with
  | value v =>
    exact .bind (.general strict (hv v (by simp [Ir.Operand.values])) fun _ hs => h hs v (by simp [Ir.Operand.values]))
      fun r => .pure And.right
  | imm k => exact .pure fun _ => trivial

/-- A check that fails, in front of a step. -/
theorem Selects.unless {c : Prop} [Decidable c] {e : Error} (he : e.isDangling = false) {k : PUnit → Select β}
    (hk : Selects f S dyn G (P ∧ ¬c) Q (k ⟨⟩)) :
    Selects f S dyn G P Q (if c then (liftM (DirectPage.fail e : Checked PUnit) : Select PUnit) >>= k else k ⟨⟩) := by
  split
  · exact .bind (Q := fun _ => False) (.fail he) fun _ => hk.mono (fun hP => hP.2.elim) fun _ _ => id
  · next hc => exact hk.mono (fun hP => ⟨hP, hc⟩) fun _ _ => id

/-- A step behind the check that an operation on integers is in the table, which settles the bank of its result. -/
theorem Selects.listed {v : Ir.Value} {k : Ir.Ty → Action → Select β} (hv : f.Typed v) (hop : op.isGeneral = true)
    (hk : ∀ ty act, Selects f S dyn G (P ∧ f.isFloat v = false) Q (k ty act)) :
    Selects f S dyn G P Q (do let ty ← f.valueType v; let act ← legal op ty; k ty act) := by
  refine .bind (.lift (grounded_valueType hv)) fun ty => .bind (.lift (grounded_legal _ _)) fun act => ?_
  refine (hk ty act).mono ?_ fun _ _ => id
  rintro ⟨⟨hP, hty⟩, hlegal⟩
  exact ⟨hP, (Ir.Function.isFloat_of_valueType hty).trans (isFloat_of_isGeneral hlegal hop)⟩

theorem selects_extend {ext : UnaryOp} {src : Reg} (h : P → S.Meets strict .general src) :
    Selects f S dyn (Straight S dyn strict) P (S.Meets strict .general) (extend ext src) :=
  .freshGeneral fun hP r hr => straight_plain rfl rfl (by simp [hr, h hP])

variable {ty : Ir.Ty} {rhs : Ir.Operand} {l : Reg} {src dst lhs : Ir.Value} {a : Ir.Address} {cc : CondCode}

theorem selects_widen {op : Ir.BinOp} {lhs : Reg} {rhs : Source} (hl : P → S.Meets strict .general lhs)
    (hr : P → rhs.General S strict) : Selects f S dyn (Straight S dyn strict) P
      (fun lr => S.Meets strict .general lr.1 ∧ lr.2.General S strict) (widen op ty lhs rhs) := by
  unfold widen
  split
  · exact .pure fun hP => ⟨hl hP, hr hP⟩
  · refine .bind (.lift (.orFail rfl _)) fun ext => .bind (selects_extend fun hP => hl hP.1) fun wide => ?_
    split
    · refine .pure ?_
      rintro ⟨⟨hP, _⟩, hwide⟩
      exact ⟨hwide, hr hP⟩
    · refine .pure ?_
      rintro ⟨⟨hP, _⟩, hwide⟩
      exact ⟨hwide, hr hP⟩
    · refine .bind (selects_extend fun hP => hr hP.1.1) fun r => .pure ?_
      rintro ⟨⟨_, hwide⟩, hr⟩
      exact ⟨hwide, hr⟩
    · refine .pure ?_
      rintro ⟨_, hwide⟩
      exact ⟨hwide, trivial⟩

theorem selects_emitAlu {op : AluOp} {d : Reg} {rhs : Source} (hd : P → S.Meets strict .general d)
    (hl : P → S.Meets strict .general l) (hr : P → rhs.General S strict) :
    Lowers f S dyn strict P (emitAlu op d l rhs) := by
  cases rhs with
  | reg r =>
    refine .emit fun hP => straight_plain rfl rfl ?_
    simpa [hd hP, hl hP] using show S.Meets strict .general r from hr hP
  | imm k =>
    simp only [emitAlu]
    split
    · exact .emit fun hP => straight_plain rfl rfl (by simp [hd hP, hl hP])
    · exact .emit fun hP => straight_plain rfl rfl (by simp [hd hP, hl hP])

theorem selects_inReg {src : Source} (h : P → src.General S strict) :
    Selects f S dyn (Straight S dyn strict) P (S.Meets strict .general) src.inReg := by
  cases src with
  | reg r => exact .pure h
  | imm k => exact .freshGeneral fun _ r hr => straight_plain rfl rfl (by simp [hr])

theorem meets_amount {src : Source} (h : src.General S strict) :
    ∀ p ∈ src.amount.regs.map (·, StorageClass.general), S.Meets strict p.2 p.1 := by
  cases src with
  | reg r => simpa [Source.amount, ShiftAmount.regs] using show S.Meets strict .general r from h
  | imm k => simp [Source.amount, ShiftAmount.regs]

theorem selects_binary {op : Ir.BinOp} (h : f.CheckedInst (.binary op dst lhs rhs))
    (hrhs : strict → ∀ v ∈ rhs.values, f.isFloat v = false) : Lowers f S dyn strict P (binary f op dst lhs rhs) := by
  have htyped : f.Typed dst ∧ f.Typed lhs ∧ ∀ v ∈ rhs.values, f.Typed v := by
    simpa [Ir.Inst.defs, Ir.Inst.uses] using h.typed
  obtain ⟨hdst, hlhs⟩ : f.isFloat dst = false ∧ f.isFloat lhs = false := by
    simpa [Ir.Function.instFault?] using h.faultless
  refine .bind (.lift (grounded_valueType htyped.1)) fun ty => .bind (.lift (grounded_legal _ _)) fun act => ?_
  refine .bind (.general strict htyped.1 fun _ _ => hdst) fun d => ?_
  refine .bind (.general strict htyped.2.1 fun _ _ => hlhs) fun l => ?_
  refine .bind (selects_source htyped.2.2 hrhs) fun r => ?_
  extract_lets jp
  -- the operands may have been extended, which changes neither bank
  have hjp (lr : Reg × Source) : Selects f S dyn (Straight S dyn strict)
      (S.Meets strict .general d ∧ S.Meets strict .general lr.1 ∧ lr.2.General S strict) (fun _ => True) (jp lr) := by
    dsimp only [jp]
    split
    · exact selects_emitAlu (fun hP => hP.1) (fun hP => hP.2.1) fun hP => hP.2.2
    · refine .emit fun hP => straight_plain rfl rfl ?_
      simpa only [Pseudo.demands, List.forall_mem_cons] using ⟨hP.1, hP.2.1, meets_amount hP.2.2⟩
    · refine .bind (selects_inReg fun hP => hP.2.2) fun r => .emit ?_
      rintro ⟨hP, hr⟩
      refine straight_plain rfl rfl ?_
      simp [hP.1, hP.2.1, hr]
    · exact .fail rfl
  split
  · exact .bind (selects_widen (fun hP => hP.1.2) fun hP => hP.2) fun lr =>
      (hjp lr).mono (by rintro ⟨⟨⟨⟨_, hd⟩, _⟩, _⟩, hlr⟩; exact ⟨hd, hlr⟩) fun _ _ => id
  · refine .bind (Q := fun lr => S.Meets strict .general lr.1 ∧ lr.2.General S strict)
      (.pure (by rintro ⟨⟨_, hl⟩, hr⟩; exact ⟨hl, hr⟩)) fun lr => ?_
    exact (hjp lr).mono (by rintro ⟨⟨⟨⟨_, hd⟩, _⟩, _⟩, hlr⟩; exact ⟨hd, hlr⟩) fun _ _ => id

theorem selects_unary {op : Ir.UnOp} (h : f.CheckedInst (.unary op dst src)) :
    Lowers f S dyn strict P (unary f op dst src) := by
  have htyped : f.Typed dst ∧ f.Typed src := by simpa [Ir.Inst.defs, Ir.Inst.uses] using h.typed
  obtain ⟨hdst, hsrc⟩ : f.isFloat dst = false ∧ f.isFloat src = false := by
    simpa [Ir.Function.instFault?] using h.faultless
  refine .bind (.lift (grounded_valueType htyped.1)) fun ty => .bind (.lift (grounded_legal _ _)) fun _ => ?_
  refine .bind (.general strict htyped.1 fun _ _ => hdst) fun d => ?_
  refine .bind (.general strict htyped.2 fun _ _ => hsrc) fun s => .emit ?_
  rintro ⟨⟨_, hd⟩, hs⟩
  exact straight_plain rfl rfl (by simp [hd, hs])

theorem selects_copy (hd : f.Typed dst) (hs : f.Typed src) : Lowers f S dyn strict P (copy f dst src) := by
  refine .bind (.lift (grounded_valueType hd)) fun dt => .bind (.lift (grounded_valueType hs)) fun st => ?_
  refine .unless rfl (.bind (.regIn strict (classFor f dst).storage hd fun _ _ => rfl) fun d => ?_)
  refine .bind (.regIn strict (classFor f dst).storage hs ?_) fun s => .emit ?_
  · rintro ⟨⟨⟨⟨_, hdt⟩, hst⟩, hbank⟩, _⟩ _
    rw [classFor, classFor, Ir.Function.isFloat_of_valueType hdt, Ir.Function.isFloat_of_valueType hst,
      not_not.mp hbank]
  · rintro ⟨⟨_, hd⟩, hs⟩
    exact ⟨.copy hd hs, rfl⟩

theorem selects_funary {op : Ir.FUnOp} (h : f.CheckedInst (.funary op dst src)) :
    Lowers f S dyn strict P (funary f op dst src) := by
  have htyped : f.Typed dst ∧ f.Typed src := by simpa [Ir.Inst.defs, Ir.Inst.uses] using h.typed
  obtain ⟨hdst, hsrc⟩ : f.isFloat dst = true ∧ f.isFloat src = true := by
    simpa [Ir.Function.instFault?] using h.faultless
  refine .bind (.lift (grounded_valueType htyped.1)) fun ty => .bind (.lift (grounded_legal _ _)) fun _ => ?_
  refine .bind (.lift (grounded_precision htyped.1)) fun prec => ?_
  refine .bind (.floating strict htyped.1 fun _ _ => hdst) fun d => ?_
  refine .bind (.floating strict htyped.2 fun _ _ => hsrc) fun s => .emit ?_
  rintro ⟨⟨_, hd⟩, hs⟩
  exact straight_plain rfl rfl (by simp [hd, hs])

/-- Conversions are listed by the side that is no float, so the table and the format settle both banks. -/
theorem selects_convert {op : Ir.ConvOp} (hd : f.Typed dst) (hs : f.Typed src) :
    Lowers f S dyn strict P (convert f op dst src) := by
  refine .bind (.lift (grounded_valueType hd)) fun dt => .bind (.lift (grounded_valueType hs)) fun st => ?_
  refine .bind (.lift (grounded_legal _ _)) fun act => .bind (.reg hd) fun d => .bind (.reg hs) fun s => ?_
  have hmeets {v : Ir.Value} {r : Reg} {bank : StorageClass} (hr : S.class? r = some (classFor f v))
      (hbank : (classFor f v).storage = bank) : S.Meets strict bank r := Scope.meets_of_class? hr hbank
  cases op with
  | fpToSi =>
    refine .bind (.lift (grounded_precision hs)) fun prec => .emit ?_
    rintro ⟨⟨⟨⟨⟨⟨_, hdt⟩, hst⟩, hlegal⟩, hd⟩, hs⟩, hprec⟩
    have hsrc := isFloat_of_precision hprec
    have hdst : f.isFloat dst = false := by
      have hlisted := isFloat_of_isGeneral hlegal rfl
      rw [Ir.Function.isFloat_of_valueType hst] at hsrc
      rw [Ir.Function.isFloat_of_valueType hdt]
      cases hf : dt.isFloat with
      | false => rfl
      | true => simp [hf, hsrc] at hlisted
    exact straight_plain rfl rfl
      (by simp [hmeets hd (storage_classFor_general hdst), hmeets hs (storage_classFor_float hsrc)])
  | siToFp =>
    refine .bind (.lift (grounded_precision ‹f.Typed dst›)) fun prec =>
      .emit ?_
    rintro ⟨⟨⟨⟨⟨⟨_, hdt⟩, hst⟩, hlegal⟩, hd⟩, hs⟩, hprec⟩
    have hdst := isFloat_of_precision hprec
    have hsrc : f.isFloat src = false := by
      have hlisted := isFloat_of_isGeneral hlegal rfl
      simpa [← Ir.Function.isFloat_of_valueType hdt, ← Ir.Function.isFloat_of_valueType hst, hdst] using hlisted
    exact straight_plain rfl rfl
      (by simp [hmeets hd (storage_classFor_float hdst), hmeets hs (storage_classFor_general hsrc)])
  | fpExt | fpTrunc =>
    refine .bind (.lift (grounded_precision ‹f.Typed dst›)) fun prec =>
      .emit ?_
    rintro ⟨⟨⟨⟨⟨⟨_, hdt⟩, hst⟩, hlegal⟩, hd⟩, hs⟩, hprec⟩
    have hdst := isFloat_of_precision hprec
    have hsrc : f.isFloat src = true := by
      have hlisted := isFloat_of_isFloating hlegal rfl
      simpa [← Ir.Function.isFloat_of_valueType hdt, ← Ir.Function.isFloat_of_valueType hst, hdst] using hlisted
    exact straight_plain rfl rfl
      (by simp [hmeets hd (storage_classFor_float hdst), hmeets hs (storage_classFor_float hsrc)])
  | bitcast =>
    generalize legal _ (if dt.isFloat = true then st else dt) = listed
    dsimp only
    split
    · refine .emit ?_
      rintro ⟨⟨⟨⟨⟨_, hdt⟩, hst⟩, _⟩, hd⟩, hs⟩
      refine straight_plain rfl rfl ?_
      simp [hmeets hd (storage_classFor_general (Ir.Function.isFloat_of_valueType hdt)),
        hmeets hs (storage_classFor_float (Ir.Function.isFloat_of_valueType hst))]
    · refine .emit ?_
      rintro ⟨⟨⟨⟨⟨_, hdt⟩, hst⟩, _⟩, hd⟩, hs⟩
      refine straight_plain rfl rfl ?_
      simp [hmeets hd (storage_classFor_float (Ir.Function.isFloat_of_valueType hdt)),
        hmeets hs (storage_classFor_general (Ir.Function.isFloat_of_valueType hst))]
    · exact .fail rfl
  | fpToUi | uiToFp => exact .fail rfl

section

variable (hS : f.slots.length ≤ S.objects)

include hS

theorem selects_slotIndex (hs : s < f.slots.length) :
    Selects f S dyn G P (fun i => i < S.objects) (liftM (slotIndex f s) : Select Nat) := by
  have hindex : slotIndex f s = .ok s := if_pos hs
  refine (Selects.lift (by rw [hindex]; exact .ok s)).mono id fun _ i hi => ?_
  cases hindex.symm.trans hi
  exact Nat.lt_of_lt_of_le hs hS

theorem selects_memOperand (hv : ∀ v ∈ a.values, f.Typed v) (ha : f.addressFault? a = none) :
    Selects f S dyn (Straight S dyn strict) P (fun p => p.1.InScope S strict) (memOperand f a) := by
  obtain ⟨base, offset⟩ := a
  cases base with
  | value v =>
    have hgeneral : f.isFloat v = false := by simpa [Ir.Function.addressFault?] using ha
    exact .bind (.general strict (hv v (by simp [Ir.Address.values])) fun _ _ => hgeneral) fun r =>
      .pure fun hP => .ofReg hP.2
  | slot s =>
    have hs : s < f.slots.length := by simpa [Ir.Function.addressFault?] using ha
    exact .bind (selects_slotIndex hS hs) fun i => .pure fun hP => .ofFrame hP.2
  | global s => exact .pure fun _ => ⟨by simp [MemBase.regs], by simp⟩

theorem selects_floatMemOperand (hv : ∀ v ∈ a.values, f.Typed v) (ha : f.addressFault? a = none) :
    Selects f S dyn (Straight S dyn strict) P (fun base => base.InScope S) (floatMemOperand f a) := by
  obtain ⟨base, offset⟩ := a
  cases base with
  | value v =>
    have hgeneral : f.isFloat v = false := by simpa [Ir.Function.addressFault?] using ha
    refine .bind (.tempGeneral strict _ rfl) fun t => ?_
    refine .bind (.general strict (hv v (by simp [Ir.Address.values])) fun _ _ => hgeneral) fun base => ?_
    extract_lets jp
    have hjp (u : PUnit) : Selects f S dyn (Straight S dyn strict) (S.class? t = some .gprLow)
        (fun base => base.InScope S) (jp u) := .pure id
    split
    · exact .bind (.emit (by rintro ⟨⟨_, ht⟩, hbase⟩; exact ⟨.copy ht.2 hbase, rfl⟩)) fun u =>
        (hjp u).mono (by rintro ⟨⟨⟨_, ht⟩, _⟩, _⟩; exact ht.1) fun _ _ => id
    · exact .bind (.emit (by rintro ⟨⟨_, ht⟩, hbase⟩; exact straight_plain rfl rfl (by simp [ht.2, hbase]))) fun u =>
        (hjp u).mono (by rintro ⟨⟨⟨_, ht⟩, _⟩, _⟩; exact ht.1) fun _ _ => id
  | slot s =>
    have hs : s < f.slots.length := by simpa [Ir.Function.addressFault?] using ha
    refine .bind (.tempGeneral strict _ rfl) fun t => .bind (selects_slotIndex hS hs) fun i => ?_
    exact .bind (.emit fun hP => ⟨.frameAddr hP.1.2.2 hP.2, rfl⟩) fun _ => .pure fun hP => hP.1.1.2.1
  | global s => exact .pure fun _ => trivial

theorem selects_load {ext : Ir.Extension} (h : f.CheckedInst (.load dst ty ext a))
    (hu : strict → f.isFloat dst = ty.isFloat) : Lowers f S dyn strict P (load f dst ty ext a) := by
  have htyped : f.Typed dst ∧ ∀ v ∈ a.values, f.Typed v := by simpa [Ir.Inst.defs, Ir.Inst.uses] using h.typed
  refine .bind (.lift (grounded_legal _ _)) fun _ => ?_
  refine .bind (.regIn strict _ htyped.1 fun _ hs => storage_classFor (hu hs)) fun d => ?_
  split
  · next hty =>
    refine .bind (.lift (grounded_formatOf _ _)) fun prec => ?_
    refine .bind (selects_floatMemOperand hS htyped.2 h.faultless) fun base => ?_
    refine .emit ?_
    rintro ⟨⟨⟨_, hd⟩, _⟩, hbase⟩
    exact ⟨.fload (storage_bankOf_float hty ▸ hd) hbase, rfl⟩
  · next hty =>
    refine .bind (selects_memOperand hS htyped.2 h.faultless) fun base => ?_
    refine .emit ?_
    rintro ⟨⟨_, hd⟩, hbase⟩
    exact ⟨.load (storage_bankOf_general hty ▸ hd) hbase, rfl⟩

theorem selects_store (h : f.CheckedInst (.store src ty a)) (hu : strict → f.isFloat src = ty.isFloat) :
    Lowers f S dyn strict P (store f src ty a) := by
  have htyped : f.Typed src ∧ ∀ v ∈ a.values, f.Typed v := by simpa [Ir.Inst.defs, Ir.Inst.uses] using h.typed
  refine .bind (.lift (grounded_legal _ _)) fun _ => ?_
  refine .bind (.regIn strict _ htyped.1 fun _ hs => storage_classFor (hu hs)) fun s => ?_
  split
  · next hty =>
    refine .bind (.lift (grounded_formatOf _ _)) fun prec => ?_
    refine .bind (selects_floatMemOperand hS htyped.2 h.faultless) fun base => ?_
    refine .emit ?_
    rintro ⟨⟨⟨_, hs⟩, _⟩, hbase⟩
    exact ⟨.fstore (storage_bankOf_float hty ▸ hs) hbase, rfl⟩
  · next hty =>
    refine .bind (selects_memOperand hS htyped.2 h.faultless) fun base => ?_
    refine .emit ?_
    rintro ⟨⟨_, hs⟩, hbase⟩
    exact ⟨.store (storage_bankOf_general hty ▸ hs) hbase, rfl⟩

end

theorem selects_const {value : Word} (hd : f.Typed dst) : Lowers f S dyn strict P (const f dst value) := by
  refine .listed hd rfl fun _ _ => .bind (.general strict hd fun hP _ => hP.2) fun d => .emit ?_
  rintro ⟨_, hd⟩
  exact straight_plain rfl rfl (by simp [hd])

theorem addConstant_grows (r : Routine) (bytes : List UInt8) :
    r.classes = (r.addConstant bytes).2.classes ∧ r.pool.length ≤ (r.addConstant bytes).2.pool.length ∧
      (r.addConstant bytes).1 < (r.addConstant bytes).2.pool.length := by
  unfold Routine.addConstant
  split
  · next i hi =>
    obtain ⟨hlt, -⟩ := List.findIdx?_eq_some_iff_getElem.mp hi
    exact ⟨rfl, Nat.le_refl _, hlt⟩
  · simp

theorem addConstant_name (r : Routine) (bytes : List UInt8) : (r.addConstant bytes).2.name = r.name := by
  unfold Routine.addConstant
  split <;> rfl

theorem selects_fconst {value : Double} (hd : f.Typed dst) : Lowers f S dyn strict P (fconst f dst value) := by
  refine .bind (.lift (grounded_valueType hd)) fun ty => .bind (.lift (grounded_legal _ _)) fun _ => ?_
  refine .bind (.lift (grounded_legal _ _)) fun _ => .bind (.lift (grounded_precision hd)) fun prec => ?_
  refine .update (fun cx => f.isFloat dst = true ∧ (cx.routine.addConstant (value.bytesIn prec)).1 < S.constants)
    (fun cx => ?_) (fun cx hP hpool => ?_) fun cx => ?_
  · obtain ⟨hclasses, hpool, -⟩ := addConstant_grows cx.routine (value.bytesIn prec)
    exact ⟨⟨[], by rw [List.append_nil]; exact hclasses⟩, hpool, addConstant_name _ _⟩
  · exact ⟨isFloat_of_precision hP.2, Nat.lt_of_lt_of_le (addConstant_grows _ _).2.2 hpool⟩
  · refine .bind (.tempGeneral strict _ rfl) fun addr => ?_
    refine .bind (.emit (by rintro ⟨hP, haddr⟩; exact ⟨.loadAddr haddr.2 hP.2, rfl⟩)) fun _ => ?_
    refine .bind (.floating strict hd (by rintro ⟨⟨hP, _⟩, _⟩ _; exact hP.1)) fun d => ?_
    refine .emit ?_
    rintro ⟨⟨⟨_, haddr⟩, _⟩, hd⟩
    exact ⟨.fload hd haddr.1, rfl⟩

theorem selects_address {target : AddrTarget} (hd : f.Typed dst) (hop : op.isGeneral = true) (ht : S.Names target) :
    Lowers f S dyn strict P (address f op dst target) := by
  refine .listed hd hop fun _ _ => .bind (.general strict hd fun hP _ => hP.2) fun d => .emit ?_
  rintro ⟨_, hd⟩
  exact ⟨.loadAddr hd ht, rfl⟩

theorem selects_slotAddr (hS : f.slots.length ≤ S.objects) (hd : f.Typed dst) (hs : s < f.slots.length) :
    Lowers f S dyn strict P (slotAddr f dst s) := by
  refine .listed hd rfl fun _ _ => .bind (selects_slotIndex hS hs) fun i => ?_
  refine .bind (.general strict hd fun hP _ => hP.1.2) fun d => .emit ?_
  rintro ⟨⟨_, hi⟩, hd⟩
  exact ⟨.frameAddr hd hi, rfl⟩

theorem selects_frameAddr (hd : f.Typed dst) : Lowers f S dyn strict P (frameAddr f dst depth) := by
  refine .listed hd rfl fun _ _ => .unless rfl ?_
  refine .bind (.notePlan .setAddressTaken trivial (fun _ => rfl) fun _ => rfl) fun _ => ?_
  exact .bind (.general strict hd fun hP _ => hP.1.1.2) fun d => .emit fun hP => ⟨.copyFrom hP.2, rfl⟩

theorem selects_returnAddressIndex :
    Selects f S dyn G P (fun i => i < S.objects) (withPlan FramePlan.returnAddressIndex) := by
  refine .withPlan .returnAddressIndex trivial (fun _ => rfl) fun plan hreturn hlen _ => ?_
  revert hlen
  unfold FramePlan.returnAddressIndex
  split
  · next i hi => exact fun _ => ⟨hreturn i hi, hreturn⟩
  · intro hlen
    have hlt : plan.objects.length + 1 ≤ S.objects := by simpa [FramePlan.push] using hlen
    refine ⟨hlt, fun i hi => ?_⟩
    cases hi
    exact hlt

theorem selects_returnAddr (hd : f.Typed dst) : Lowers f S dyn strict P (returnAddr f dst depth) := by
  refine .listed hd rfl fun _ _ => .unless rfl (.bind selects_returnAddressIndex fun i => ?_)
  exact .bind (.general strict hd fun hP _ => hP.1.1.2) fun d => .emit fun hP => ⟨.load hP.2 (.ofFrame hP.1.2), rfl⟩

theorem selects_dynAlloca {size : Ir.Value} {align : Nat} (hd : f.Typed dst) (hs : f.Typed size)
    (hu : strict → f.isFloat size = false) : Lowers f S dyn strict P (dynAlloca f dst size align) := by
  refine .listed hd rfl fun _ _ => .bind (.withPlan (Q := fun _ => dyn = true) .setVarSized trivial (fun _ => rfl)
    fun _ hreturn _ hdyn => ⟨hdyn rfl, hreturn⟩) fun _ => ?_
  refine .bind (.general strict hd fun hP _ => hP.1.2) fun d => ?_
  refine .bind (.general strict hs fun _ => hu) fun s => ?_
  refine .emit ?_
  rintro ⟨⟨⟨_, hdyn⟩, hd⟩, hs⟩
  exact straight_plain rfl hdyn (by simp [hd, hs])

/-- The first variadic argument is a frame object, if the frame notes one. -/
theorem selects_vararg {name : String} : Selects f S dyn G P (fun i => i < S.objects)
    (get >>= fun cx => (liftM (orFail (.internal (.vaStart name)) cx.plan.vararg) : Select Nat)) where
  grounded cx := by
    change Grounded _ ((liftM (orFail (.internal (.vaStart name)) cx.plan.vararg) : Select Nat).run cx)
    exact (.lift (.orFail rfl _) : Selects f S dyn G P _ _).grounded cx
  grows cx i cx' hrun := by
    obtain ⟨_, _, hget, hrun⟩ := run_bind hrun
    cases hget
    obtain ⟨-, rfl⟩ := run_lift hrun
    exact .refl _
  gives _ cx i cx' hcx hrun _ := by
    obtain ⟨_, _, hget, hrun⟩ := run_bind hrun
    cases hget
    obtain ⟨hi, rfl⟩ := run_lift hrun
    exact ⟨hcx.vararg i (orFail_eq_ok.mp hi), hcx, [], by simp, by simp⟩

theorem selects_vaStart {list : Ir.Value} (hl : f.Typed list) : Lowers f S dyn strict P (vaStart f list) := by
  refine .listed hl rfl fun _ _ => ?_
  rw [← bind_assoc]
  refine .bind selects_vararg fun i => .bind (.tempGeneral strict _ rfl) fun addr => ?_
  refine .bind (.emit (by rintro ⟨⟨_, hi⟩, haddr⟩; exact ⟨.frameAddr haddr.2 hi, rfl⟩)) fun _ => ?_
  refine .bind (.general strict hl fun hP _ => hP.1.1.1.2) fun r => .emit ?_
  rintro ⟨⟨⟨_, haddr⟩, _⟩, hr⟩
  exact ⟨.store haddr.2 (.ofReg hr), rfl⟩

def Fused.InScope (S : Scope) (strict : Prop) : Fused → Prop
  | compare cmp => ∀ r ∈ cmp.regs, S.Meets strict cmp.storage r
  | constant _ => True

theorem intCompare_inScope {rhs : CmpRhs Reg} (hl : S.Meets strict .general l)
    (hr : ∀ r, rhs = .reg r → S.Meets strict .general r) : (intCompare cc l rhs).InScope S strict := by
  cases h : intCompare cc l rhs with
  | constant b => trivial
  | compare cmp =>
    obtain ⟨⟨cc', l', rhs', rfl⟩, hregs⟩ := intCompare_regs h
    intro r hmem
    have hold := hregs r hmem
    cases rhs with
    | reg q =>
      obtain rfl | rfl : r = l ∨ r = q := by simpa [Compare.regs] using hold
      · exact hl
      · exact hr r rfl
    | imm k =>
      rw [List.mem_singleton.mp hold]
      exact hl

theorem selects_valueCompare (hl : f.Typed lhs) (hr : ∀ v ∈ rhs.values, f.Typed v)
    (hu : strict → f.isFloat lhs = false ∧ ∀ v ∈ rhs.values, f.isFloat v = false) :
    Selects f S dyn G P (Fused.InScope S strict) (valueCompare f cc lhs rhs) := by
  refine .bind (.general strict hl fun _ hs => (hu hs).1) fun l => ?_
  refine .bind (Q := fun rhs => ∀ r, rhs = .reg r → S.Meets strict .general r) ?_ fun r =>
    .pure (by rintro ⟨⟨_, hl⟩, hr⟩; exact intCompare_inScope hl hr)
  cases rhs with
  | value v =>
    have hv : v ∈ Ir.Operand.values (.value v) := by simp [Ir.Operand.values]
    refine .bind (.general strict (hr v hv) fun _ hs => (hu hs).2 v hv) fun r => .pure ?_
    rintro ⟨_, hr⟩ q hq
    cases hq
    exact hr
  | imm k => exact .pure fun _ q hq => by cases hq

theorem canonicalizeFloat_inScope {cc : FloatCond} {prec : Precision} {r : Reg} (hl : S.Meets strict .floatingPoint l)
    (hr : S.Meets strict .floatingPoint r) :
    (Fused.compare (.float (canonicalizeFloat cc l r).1 prec (canonicalizeFloat cc l r).2.1
      (canonicalizeFloat cc l r).2.2)).InScope S strict := by
  unfold canonicalizeFloat
  split <;> simp [Fused.InScope, Compare.regs, Compare.storage, hl, hr]

theorem selects_floatCompare {cc : FloatCond} {rhs : Ir.Value} (hl : f.Typed lhs) (hr : f.Typed rhs)
    (hu : strict → f.isFloat rhs = true) :
      Selects f S dyn G P (Fused.InScope S strict) (floatCompare f cc lhs rhs) := by
  refine .bind (.lift (grounded_valueType hl)) fun ty => .bind (.lift (grounded_legal _ _)) fun _ => ?_
  refine .bind (.lift (grounded_precision hl)) fun prec => ?_
  refine .bind (.floating strict hl fun hP _ => isFloat_of_precision hP.2) fun l => ?_
  exact .bind (.floating strict hr fun _ => hu) fun r => .pure fun hP => canonicalizeFloat_inScope hP.1.2 hP.2

theorem selects_emitSet (hd : f.Typed dst) (hu : strict → f.isFloat dst = false) (hfused : P → fused.InScope S strict) :
    Lowers f S dyn strict P (emitSet f dst fused) := by
  refine .bind (.general strict hd fun _ => hu) fun d => ?_
  cases fused with
  | constant b => exact .emit (by rintro ⟨_, hd⟩; exact straight_plain rfl rfl (by simp [hd]))
  | compare cmp =>
    refine .bind (.tempGeneral strict .gpr rfl) fun one => .bind (.tempGeneral strict .gpr rfl) fun zero => ?_
    refine .bind (.emit (by rintro ⟨⟨_, hone⟩, _⟩; exact straight_plain rfl rfl (by simp [hone.2]))) fun _ => ?_
    refine .bind (.emit (by rintro ⟨⟨_, hzero⟩, _⟩; exact straight_plain rfl rfl (by simp [hzero.2]))) fun _ => ?_
    refine .emit ?_
    rintro ⟨⟨⟨⟨⟨hP, hd⟩, hone⟩, hzero⟩, _⟩, _⟩
    exact ⟨.selectCc (hfused hP) hd hone.2 hzero.2, rfl⟩

theorem selects_emitSelect (hd : f.Typed dst) (ht : f.Typed onTrue) (he : f.Typed onFalse)
    (hu : strict → f.isFloat onTrue = f.isFloat dst ∧ f.isFloat onFalse = f.isFloat dst)
    (hfused : P → fused.InScope S strict) : Lowers f S dyn strict P (emitSelect f dst fused onTrue onFalse) := by
  have hbank {v : Ir.Value} (h : f.isFloat v = f.isFloat dst) : (classFor f v).storage = (classFor f dst).storage := by
    rw [classFor, classFor, h]
  refine .bind (.regIn strict _ hd fun _ _ => rfl) fun d => ?_
  refine .bind (.regIn strict _ ht fun _ hs => hbank (hu hs).1) fun t => ?_
  refine .bind (.regIn strict _ he fun _ hs => hbank (hu hs).2) fun e => ?_
  cases fused with
  | constant b =>
    cases b with
    | true => exact .emit (by rintro ⟨⟨⟨_, hd⟩, ht⟩, _⟩; exact ⟨.copy hd ht, rfl⟩)
    | false => exact .emit (by rintro ⟨⟨⟨_, hd⟩, _⟩, he⟩; exact ⟨.copy hd he, rfl⟩)
  | compare cmp => exact .emit (by rintro ⟨⟨⟨hP, hd⟩, ht⟩, he⟩; exact ⟨.selectCc (hfused hP) hd ht he, rfl⟩)

theorem selects_selectCc (hd : f.Typed dst) (hl : f.Typed lhs) (hr : ∀ v ∈ rhs.values, f.Typed v)
    (ht : f.Typed onTrue) (he : f.Typed onFalse)
    (hcmp : strict → f.isFloat lhs = false ∧ ∀ v ∈ rhs.values, f.isFloat v = false)
    (hu : strict → f.isFloat onTrue = f.isFloat dst ∧ f.isFloat onFalse = f.isFloat dst) :
    Lowers f S dyn strict P (selectCc f cc dst lhs rhs onTrue onFalse) := by
  refine .bind (.lift (grounded_valueType hd)) fun ty => .bind (.lift (grounded_legal _ _)) fun _ => ?_
  exact .bind (selects_valueCompare hl hr hcmp) fun fused => selects_emitSelect hd ht he hu And.right

section ShiftParts

variable {lo hi : Reg}

variable {kind : ShiftKind} {op : Ir.ShiftPartsOp}

theorem selects_shifted {src : Reg} {amount : ShiftAmount} (hs : P → S.Meets strict .general src)
    (ha : P → ∀ r ∈ amount.regs, S.Meets strict .general r) :
    Selects f S dyn (Straight S dyn strict) P (S.Meets strict .general) (shifted kind src amount) := by
  refine .freshGeneral fun hP r hr => straight_plain rfl rfl ?_
  simpa using ⟨hr, hs hP, ha hP⟩

theorem selects_shiftedBy {src : Reg} {n : Nat} (hs : P → S.Meets strict .general src) :
    Selects f S dyn (Straight S dyn strict) P (S.Meets strict .general) (shiftedBy kind src n) :=
  selects_shifted hs fun _ => by simp [ShiftAmount.regs]

theorem selects_unionOf {lhs rhs : Reg} (hl : P → S.Meets strict .general lhs) (hr : P → S.Meets strict .general rhs) :
    Selects f S dyn (Straight S dyn strict) P (S.Meets strict .general) (unionOf lhs rhs) :=
  .freshGeneral fun hP r hd => straight_plain rfl rfl (by simp [hd, hl hP, hr hP])

theorem selects_zeroReg : Selects f S dyn (Straight S dyn strict) P (S.Meets strict .general) zeroReg :=
  .freshGeneral fun _ r hr => straight_plain rfl rfl (by simp [hr])

def GeneralPair (S : Scope) (strict : Prop) (p : Reg × Reg) : Prop :=
  S.Meets strict .general p.1 ∧ S.Meets strict .general p.2

theorem selects_constantParts {k : Nat} (hlo : P → S.Meets strict .general lo) (hhi : P → S.Meets strict .general hi) :
    Selects f S dyn (Straight S dyn strict) P (GeneralPair S strict) (constantParts op lo hi k) := by
  unfold constantParts
  split
  · exact .pure fun hP => ⟨hlo hP, hhi hP⟩
  · split
    · split
      · refine .bind (selects_shiftedBy hhi) fun upper => .bind (selects_shiftedBy fun hP => hlo hP.1) fun carry => ?_
        refine .bind (selects_unionOf (fun hP => hP.1.2) fun hP => hP.2) fun newHi => ?_
        exact .bind (selects_shiftedBy fun hP => hlo hP.1.1.1) fun newLo => .pure fun hP => ⟨hP.2, hP.1.2⟩
      · refine .bind (selects_shiftedBy hlo) fun lower => .bind (selects_shiftedBy fun hP => hhi hP.1) fun carry => ?_
        refine .bind (selects_unionOf (fun hP => hP.1.2) fun hP => hP.2) fun newLo => ?_
        exact .bind (selects_shiftedBy fun hP => hhi hP.1.1.1) fun newHi => .pure fun hP => ⟨hP.1.2, hP.2⟩
    · split
      · exact .bind (selects_shiftedBy hlo) fun _ => .bind selects_zeroReg fun _ => .pure fun hP => ⟨hP.2, hP.1.2⟩
      · exact .bind (selects_shiftedBy hhi) fun _ => .bind selects_zeroReg fun _ => .pure fun hP => ⟨hP.1.2, hP.2⟩
      · exact .bind (selects_shiftedBy hhi) fun _ => .bind (selects_shiftedBy fun hP => hhi hP.1) fun _ =>
          .pure (by rintro ⟨⟨_, hlo⟩, hhi⟩; exact ⟨hlo, hhi⟩)

structure VariableParts.General (S : Scope) (strict : Prop) (parts : VariableParts) : Prop where
  small : GeneralPair S strict parts.small
  big : GeneralPair S strict parts.big
  amount : S.Meets strict .general parts.amount

theorem selects_variableParts {amount : Reg} (hlo : P → S.Meets strict .general lo)
    (hhi : P → S.Meets strict .general hi) (ha : P → S.Meets strict .general amount) :
    Selects f S dyn (Straight S dyn strict) P (fun parts => parts.General S strict)
      (variableParts op lo hi amount) := by
  have hby (a : Reg) (ha : S.Meets strict .general a) : ∀ r ∈ (ShiftAmount.reg a).regs, S.Meets strict .general r := by
    simpa [ShiftAmount.regs] using ha
  refine .bind (.tempGeneral strict _ rfl) fun a => ?_
  refine .bind (.emit (by rintro ⟨hP, h⟩; exact straight_plain rfl rfl (by simp [h.2, ha hP]))) fun _ => ?_
  refine .bind (.tempGeneral strict _ rfl) fun neg => ?_
  refine .bind (.emit (by rintro ⟨⟨⟨_, h⟩, _⟩, hneg⟩; exact straight_plain rfl rfl (by simp [h.2, hneg.2]))) fun _ => ?_
  refine .bind (.tempGeneral strict _ rfl) fun inv => ?_
  refine .bind (.emit (by rintro ⟨⟨⟨_, hneg⟩, _⟩, hinv⟩; exact straight_plain rfl rfl (by simp [hneg.2, hinv.2])))
    fun _ => ?_
  -- from here on only the two words, the amount and its complement matter
  refine Selects.mono (P := S.Meets strict .general lo ∧ S.Meets strict .general hi ∧ S.Meets strict .general a ∧
    S.Meets strict .general inv) ?_ (by rintro ⟨⟨⟨⟨⟨⟨hP, h⟩, _⟩, _⟩, _⟩, hinv⟩, _⟩; exact ⟨hlo hP, hhi hP, h.2, hinv.2⟩)
    fun _ _ => id
  split
  · refine .bind (selects_shifted (fun hP => hP.2.1) fun hP => hby a hP.2.2.1) fun upper => ?_
    refine .bind (selects_shiftedBy fun hP => hP.1.1) fun half => ?_
    refine .bind (selects_shifted (fun hP => hP.2) fun hP => hby inv hP.1.1.2.2.2) fun carry => ?_
    refine .bind (selects_unionOf (fun hP => hP.1.1.2) fun hP => hP.2) fun hiSmall => ?_
    refine .bind (selects_shifted (fun hP => hP.1.1.1.1.1) fun hP => hby a hP.1.1.1.1.2.2.1) fun loSmall => ?_
    refine .bind (selects_shifted (fun hP => hP.1.1.1.1.1.1) fun hP => hby a hP.1.1.1.1.1.2.2.1) fun hiBig => ?_
    refine .bind selects_zeroReg fun loBig => .pure ?_
    rintro ⟨⟨⟨⟨hP, hhiSmall⟩, hloSmall⟩, hhiBig⟩, hloBig⟩
    exact ⟨⟨hloSmall, hhiSmall⟩, ⟨hloBig, hhiBig⟩, hP.1.1.1.2.2.1⟩
  · refine .bind (selects_shifted (fun hP => hP.1) fun hP => hby a hP.2.2.1) fun lower => ?_
    refine .bind (selects_shiftedBy fun hP => hP.1.2.1) fun half => ?_
    refine .bind (selects_shifted (fun hP => hP.2) fun hP => hby inv hP.1.1.2.2.2) fun carry => ?_
    refine .bind (selects_unionOf (fun hP => hP.1.1.2) fun hP => hP.2) fun loSmall => ?_
    refine .bind (selects_shifted (fun hP => hP.1.1.1.1.2.1) fun hP => hby a hP.1.1.1.1.2.2.1) fun hiSmall => ?_
    refine .bind (selects_shifted (fun hP => hP.1.1.1.1.1.2.1) fun hP => hby a hP.1.1.1.1.1.2.2.1) fun loBig => ?_
    extract_lets jp
    have hjp (r : Reg) : Selects f S dyn (Straight S dyn strict)
        (((S.Meets strict .general a ∧ S.Meets strict .general loSmall) ∧ S.Meets strict .general hiSmall) ∧
          S.Meets strict .general loBig ∧ S.Meets strict .general r)
        (fun parts => parts.General S strict) (jp r) :=
      .pure (by rintro ⟨⟨⟨ha, hloSmall⟩, hhiSmall⟩, hbig⟩; exact ⟨⟨hloSmall, hhiSmall⟩, hbig, ha⟩)
    split
    · exact .bind (selects_shiftedBy fun hP => hP.1.1.1.1.1.1.2.1) fun r =>
        (hjp r).mono (by rintro ⟨⟨⟨⟨hP, h1⟩, h2⟩, h3⟩, h4⟩; exact ⟨⟨⟨hP.1.1.1.2.2.1, h1⟩, h2⟩, h3, h4⟩) fun _ _ => id
    · exact .bind selects_zeroReg fun r =>
        (hjp r).mono (by rintro ⟨⟨⟨⟨hP, h1⟩, h2⟩, h3⟩, h4⟩; exact ⟨⟨⟨hP.1.1.1.2.2.1, h1⟩, h2⟩, h3, h4⟩) fun _ _ => id

theorem selects_shiftParts {dstLo dstHi lo hi : Ir.Value} {amount : Ir.Operand}
    (h : f.CheckedInst (.shiftParts op dstLo dstHi lo hi amount))
    (hu : strict → ∀ v ∈ dstLo :: dstHi :: lo :: hi :: amount.values, f.isFloat v = false) :
    Lowers f S dyn strict P (shiftParts f op dstLo dstHi lo hi amount) := by
  have htyped : ∀ v ∈ dstLo :: dstHi :: lo :: hi :: amount.values, f.Typed v := h.typed
  have hreg {P : Prop} {v : Ir.Value} (hv : v ∈ dstLo :: dstHi :: lo :: hi :: amount.values) :
      Selects f S dyn (Straight S dyn strict) P (S.Meets strict .general) (reg f v) :=
    .general strict (htyped v hv) fun _ hs => hu hs v hv
  refine .bind (.lift (grounded_legal _ _)) fun _ => .bind (hreg (by simp)) fun l => .bind (hreg (by simp)) fun h => ?_
  refine .bind (hreg (by simp)) fun dl => .bind (hreg (by simp)) fun dh => ?_
  cases amount with
  | imm k =>
    refine .bind (selects_constantParts (fun hP => hP.1.1.1.2) fun hP => hP.1.1.2) fun parts => ?_
    refine .bind (.emit (by rintro ⟨⟨⟨_, hdl⟩, _⟩, hparts⟩; exact ⟨.copy hdl hparts.1, rfl⟩)) fun _ => ?_
    refine .emit ?_
    rintro ⟨⟨⟨_, hdh⟩, hparts⟩, _⟩
    exact ⟨.copy hdh hparts.2, rfl⟩
  | value v =>
    refine .bind (hreg (by simp [Ir.Operand.values])) fun a => ?_
    refine .bind (selects_variableParts (fun hP => hP.1.1.1.1.2) (fun hP => hP.1.1.1.2) fun hP => hP.2) fun parts => ?_
    have hcmp (h : S.Meets strict .general parts.amount) :
        (intCompare .uge parts.amount (.imm 32#32)).InScope S strict := intCompare_inScope h fun r hr => by cases hr
    revert hcmp
    generalize intCompare .uge parts.amount (.imm 32#32) = fused
    intro hcmp
    cases fused with
    | constant b => exact .fail rfl
    | compare cmp =>
      refine .bind (.emit ?_) fun _ => .emit ?_
      · rintro ⟨⟨⟨⟨_, hdl⟩, _⟩, _⟩, hparts⟩
        exact ⟨.selectCc (hcmp hparts.amount) hdl hparts.big.1 hparts.small.1, rfl⟩
      · rintro ⟨⟨⟨⟨_, hdh⟩, _⟩, hparts⟩, _⟩
        exact ⟨.selectCc (hcmp hparts.amount) hdh hparts.big.2 hparts.small.2, rfl⟩

end ShiftParts

section Calls

def Passes (ty : Ir.Ty) (r : Register) : Prop := r ∈ argumentRegs ∧ r.storage = (bankOf ty).storage

variable {types : List Ir.Ty} {ty : Ir.Ty} {r : Register} {callee : Ir.Callee} {γ : Type} {xs : List γ} {loc : ArgLoc}

theorem assignArguments_passes {fixed : Nat} (h : (ty, ArgLoc.reg r) ∈ types.zip (assignArguments types fixed).locs) :
    Passes ty r := by
  obtain ⟨i, hi⟩ := List.mem_iff_getElem?.mp h
  obtain ⟨hty, hloc⟩ := List.getElem?_zip_eq_some.mp hi
  have hbank : ∀ r ∈ ArgState.bank {} ty, r ∈ argumentRegs ∧ r.storage = (bankOf ty).storage := by cases ty <;> decide
  exact hbank r ((ArgState.place_reg hloc).2 ty hty)

theorem assignReturns_passes {regs : List Register} (h : assignReturns types = .ok regs)
    (hr : (ty, r) ∈ types.zip regs) : Passes ty r := by
  unfold assignReturns at h
  split at h
  · cases h
    cases hr
  · cases h
    cases List.mem_singleton.mp hr
    exact ⟨by decide, rfl⟩
  · cases h
    cases List.mem_singleton.mp hr
    exact ⟨by decide, rfl⟩
  · split at h
    · next hints =>
      cases h
      obtain ⟨hty, hmem⟩ := List.of_mem_zip hr
      have hinteger : ∀ t ∈ types, t.isInteger = true := by simpa using (Bool.and_eq_true_iff.mp hints).2
      have hnot : ¬ty.isFloat = true := by
        have hone := hinteger ty hty
        cases ty with
        | f32 | f64 => cases hone
        | _ => simp [Ir.Ty.isFloat]
      rw [Passes, storage_bankOf_general hnot]
      have hall : ∀ q ∈ intReturnRegs, q ∈ argumentRegs ∧ q.storage = .general := by decide
      exact hall r (List.mem_of_mem_take hmem)
    · cases h

theorem valueType_of_zip {vs : List Ir.Value} (h : typesOf f vs = .ok types) {v : Ir.Value} {x : γ}
    (hv : (v, x) ∈ vs.zip xs) : ∃ ty, f.valueType v = .ok ty ∧ (ty, x) ∈ types.zip xs := by
  obtain ⟨i, hi⟩ := List.mem_iff_getElem?.mp hv
  obtain ⟨hvi, hxi⟩ := List.getElem?_zip_eq_some.mp hi
  obtain ⟨ty, hty, hval⟩ := (Stream.mapM_ok h).2 i v hvi
  exact ⟨ty, hval, List.mem_of_getElem? (List.getElem?_zip_eq_some.mpr ⟨hty, hxi⟩)⟩

theorem eq_of_mem_zip_zip {δ : Type} {ys : List δ} {a b : γ} {y : δ} (h : (a, b, y) ∈ xs.zip (xs.zip ys)) : a = b := by
  obtain ⟨i, hi⟩ := List.mem_iff_getElem?.mp h
  obtain ⟨ha, hby⟩ := List.getElem?_zip_eq_some.mp hi
  obtain ⟨hb, -⟩ := List.getElem?_zip_eq_some.mp hby
  exact Option.some.inj (ha.symm.trans hb)

theorem selects_argument {arg : Ir.Value} (ha : f.Typed arg) (hty : P → f.valueType arg = .ok ty)
    (hloc : ∀ r, loc = .reg r → Passes ty r) :
    Selects f S dyn (Straight S dyn strict) P
      (fun o => ∀ p, o = some p → p.1 ∈ argumentRegs ∧ S.Meets strict p.1.storage p.2)
      (argument f arg ty loc) := by
  refine .bind (.regIn strict _ ha fun hP _ => storage_classFor (Ir.Function.isFloat_of_valueType (hty hP))) fun s => ?_
  cases loc with
  | reg r =>
    refine .pure ?_
    rintro ⟨_, hs⟩ p hp
    cases hp
    obtain ⟨hr, hbank⟩ := hloc r rfl
    exact ⟨hr, hbank ▸ hs⟩
  | stack offset size =>
    dsimp only
    split
    · next hfloat =>
      refine .bind (.lift (grounded_formatOf _ _)) fun prec => .bind (.tempGeneral strict _ rfl) fun addr => ?_
      refine .bind (.emit (by rintro ⟨_, haddr⟩; exact straight_plain rfl rfl (by simp [haddr.2]))) fun _ => ?_
      refine .bind (.emit ?_) fun _ => .pure fun _ p hp => by cases hp
      rintro ⟨⟨⟨⟨_, hs⟩, _⟩, haddr⟩, _⟩
      exact ⟨.fstore (storage_bankOf_float hfloat ▸ hs) haddr.1, rfl⟩
    · next hfloat =>
      refine .bind (.emit ?_) fun _ => .pure fun _ p hp => by cases hp
      rintro ⟨_, hs⟩
      exact ⟨.store (storage_bankOf_general hfloat ▸ hs) ⟨by simp [MemBase.regs], by simp⟩, rfl⟩

theorem selects_callTarget (hv : ∀ v ∈ callee.values, f.Typed v)
    (hu : strict → ∀ v ∈ callee.values, f.isFloat v = false) :
    Selects f S dyn G P (fun target => ∀ r, target = .reg r → S.Meets strict .general r) (callTarget f callee) := by
  cases callee with
  | direct name => exact .pure fun _ r hr => by cases hr
  | indirect v =>
    refine .bind (.general strict (hv v (by simp [Ir.Callee.values])) fun _ hs => hu hs v (by simp [Ir.Callee.values]))
      fun r => .pure ?_
    rintro ⟨_, hr⟩ q hq
    cases hq
    exact hr

theorem selects_call {args : List Ir.Value} {numFixed : Option Nat} {results : List Ir.Value}
    (hargs : ∀ v ∈ args, f.Typed v) (hresults : ∀ v ∈ results, f.Typed v) (hcallee : ∀ v ∈ callee.values, f.Typed v)
    (hu : strict → ∀ v ∈ callee.values, f.isFloat v = false)
    (hroom : OverfullCall f (.call callee args numFixed results) → Overfull f) :
    Lowers f S dyn strict P (call f callee args numFixed results) := by
  refine .bind (.lift (grounded_legal _ _)) fun _ => .check (grounded_typesOf hargs).mono fun types htypes => ?_
  have hfull (h : 4294967296 ≤ returnAddressSize + (assignArguments types (numFixed.getD args.length)).stackSize) :
      Overfull f := hroom ⟨_, _, _, _, types, rfl, htypes, h⟩
  refine .check (grounded_planArguments fun h => hfull (Nat.le_add_left_of_le h)) fun plan hplan => ?_
  obtain ⟨rfl, -⟩ := planArguments_eq_ok.mp hplan
  refine .check (grounded_unsigned32 hfull) fun size hsize => ?_
  obtain rfl := unsigned32_eq_ok hsize
  refine .bind (.notePlan (.noteCall _) ?_ (fun _ => rfl) fun _ => rfl) fun _ => ?_
  · exact Nat.dvd_add (by decide) (ArgState.dvd_stackSize (Nat.dvd_zero _))
  refine .bind (selects_callTarget hcallee hu) fun target => ?_
  refine .bind (.emit fun _ => straight_plain rfl rfl (by simp)) fun _ => ?_
  refine .bind (Q := fun inRegs => ∀ p ∈ inRegs, p.1 ∈ argumentRegs ∧ S.Meets strict p.1.storage p.2) ?_
    fun inRegs => ?_
  · refine .filterMapM fun x hx => ?_
    obtain ⟨arg, ty, loc⟩ := x
    refine selects_argument (hargs arg (List.of_mem_zip hx).1) (fun _ => ?_) fun r hr => ?_
    · obtain ⟨ty', hval, hmem⟩ := valueType_of_zip htypes hx
      rw [hval, eq_of_mem_zip_zip hmem]
    · cases hr
      exact assignArguments_passes (List.of_mem_zip hx).2
  refine .bind (.forM fun p hp => .emit fun hP => ⟨.copyTo (hP.2 p hp).1 (hP.2 p hp).2, rfl⟩) fun _ => ?_
  refine .bind (.emit fun hP => straight_plain rfl rfl ?_) fun _ => ?_
  · have htarget := hP.1.1.1.2
    cases target with
    | symbol name => simp
    | reg r => simpa using htarget r rfl
  refine .bind (.emit fun _ => straight_plain rfl rfl (by simp)) fun _ => ?_
  refine .bind (.lift (grounded_typesOf hresults)) fun rtypes => .bind (.lift (grounded_assignReturns _)) fun regs => ?_
  refine .forM fun p hp => ?_
  refine .bind (.regIn strict p.2.storage (hresults p.1 (List.of_mem_zip hp).1) fun hP _ => ?_) fun d =>
    .emit (by rintro ⟨_, hd⟩; exact ⟨.copyFrom hd, rfl⟩)
  obtain ⟨ty, hval, hmem⟩ := valueType_of_zip hP.1.2 hp
  rw [(assignReturns_passes hP.2 hmem).2]
  exact storage_classFor (Ir.Function.isFloat_of_valueType hval)

theorem selects_fbinary {op : Ir.FBinOp} {dst lhs rhs : Ir.Value} (h : f.CheckedInst (.fbinary op dst lhs rhs)) :
    Lowers f S dyn strict P (fbinary f op dst lhs rhs) := by
  have htyped : f.Typed dst ∧ f.Typed lhs ∧ f.Typed rhs := by simpa [Ir.Inst.defs, Ir.Inst.uses] using h.typed
  obtain ⟨hdst, hlhs, hrhs⟩ : f.isFloat dst = true ∧ f.isFloat lhs = true ∧ f.isFloat rhs = true := by
    simpa [Ir.Function.instFault?] using h.faultless
  refine .bind (.lift (grounded_valueType htyped.1)) fun ty => .bind (.lift (grounded_legal _ _)) fun act => ?_
  split
  · refine selects_call (by simp [htyped]) (by simp [htyped]) (by simp [Ir.Callee.values])
      (by simp [Ir.Callee.values]) ?_
    -- two arguments can be counted
    rintro ⟨_, _, _, _, types, hcall, htypes, hfull⟩
    cases hcall
    have hlen : types.length = 2 := (Stream.mapM_ok htypes).1
    have hle : (assignArguments types 2).stackSize ≤ 0 + 8 * types.length := ArgState.stackSize_le {} 2 types
    change 4294967296 ≤ 4 + (assignArguments types 2).stackSize at hfull
    omega
  · extract_lets jp
    have hjp (op : FAluOp) : Lowers f S dyn strict True (jp op) := by
      refine .bind (.lift (grounded_precision htyped.1)) fun prec => ?_
      refine .bind (.floating strict htyped.1 fun _ _ => hdst) fun d => ?_
      refine .bind (.floating strict htyped.2.1 fun _ _ => hlhs) fun l => ?_
      refine .bind (.floating strict htyped.2.2 fun _ _ => hrhs) fun r => ?_
      refine .emit ?_
      rintro ⟨⟨⟨_, hd⟩, hl⟩, hr⟩
      exact straight_plain rfl rfl (by simp [hd, hl, hr])
    cases op with
    | rem => exact .bind (Q := fun _ => True) (.fail rfl) fun op => (hjp op).mono (fun _ => trivial) fun _ _ => id
    | _ =>
      exact .bind (Q := fun _ => True) (.pure fun _ => trivial) fun op => (hjp op).mono (fun _ => trivial) fun _ _ => id

theorem selects_parameter {param : Ir.Value} (hty : f.valueType param = .ok ty)
    (hloc : ∀ r, loc = .reg r → Passes ty r) : Lowers f S dyn strict P (parameter f param ty loc) := by
  refine .bind (.regIn strict _ (Ir.Function.typed_of_valueType hty) fun _ _ =>
    storage_classFor (Ir.Function.isFloat_of_valueType hty)) fun d => ?_
  cases loc with
  | reg r =>
    refine .bind (.noteRoutine (fun g => { g with liveIns := g.liveIns ++ [r] }) (fun _ => rfl) (fun _ => rfl)
      fun _ => rfl) fun _ => .emit ?_
    rintro ⟨⟨_, hd⟩, _⟩
    refine ⟨.copyFrom ?_, rfl⟩
    rw [(hloc r rfl).2]
    exact hd
  | stack offset size =>
    refine .bind (.withPlan (Q := fun i => i < S.objects) (.addIncoming offset size) trivial (fun _ => rfl)
      fun plan hreturn hlen _ => ?_) fun i => ?_
    · simp only [FramePlan.addIncoming, FramePlan.push, List.length_append, List.length_singleton] at hlen
      exact ⟨hlen, hreturn⟩
    · split
      · next hfloat =>
        refine .bind (.lift (grounded_formatOf _ _)) fun prec => .bind (.tempGeneral strict _ rfl) fun addr => ?_
        refine .bind (.emit (by rintro ⟨⟨⟨_, hi⟩, _⟩, haddr⟩; exact ⟨.frameAddr haddr.2 hi, rfl⟩)) fun _ => ?_
        refine .emit ?_
        rintro ⟨⟨⟨⟨⟨_, hd⟩, _⟩, _⟩, haddr⟩, _⟩
        exact ⟨.fload (storage_bankOf_float hfloat ▸ hd) haddr.1, rfl⟩
      · next hfloat =>
        refine .emit ?_
        rintro ⟨⟨_, hd⟩, hi⟩
        exact ⟨.load (storage_bankOf_general hfloat ▸ hd) (.ofFrame hi), rfl⟩

theorem selects_parameters (hparams : ∀ v ∈ f.params, f.Typed v) : Lowers f S dyn strict P
      ((f.params.zip (f.paramTypes.zip (assignArguments f.paramTypes f.paramTypes.length).locs)).forM fun x =>
        parameter f x.1 x.2.1 x.2.2) := by
  refine .forM fun x hx => ?_
  obtain ⟨param, ty, loc⟩ := x
  refine selects_parameter ?_ fun r hr => ?_
  · obtain ⟨i, hi⟩ := List.mem_iff_getElem?.mp hx
    obtain ⟨hparam, hrest⟩ := List.getElem?_zip_eq_some.mp hi
    obtain ⟨hty, -⟩ := List.getElem?_zip_eq_some.mp hrest
    have htyped : param < f.valueTypes.length := hparams param (List.mem_of_getElem? hparam)
    rw [Ir.Function.paramTypes, List.getElem?_map, hparam] at hty
    rw [Ir.Function.valueType, List.getElem?_eq_getElem htyped]
    simpa [List.getD_eq_getElem?_getD, List.getElem?_eq_getElem htyped] using hty
  · cases hr
    exact assignArguments_passes (List.of_mem_zip hx).2

end Calls

end Rules

end DirectPage.Selection
