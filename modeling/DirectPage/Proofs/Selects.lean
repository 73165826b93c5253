import DirectPage.Proofs.Emission
import DirectPage.Proofs.Scope

/-! Steps of selection that keep to their scope.

What a function refers to is checked once, in front. From there on a step of selection only refers to what was made
before, so it does not fail for a reference. Which bank a register is in follows from the type of its value. -/
namespace DirectPage

namespace Ir.Function

def Typed (f : Function) (v : Value) : Prop := v < f.valueTypes.length

structure CheckedInst (f : Function) (i : Inst) : Prop where
  typed : ∀ v ∈ i.defs ++ i.uses, f.Typed v
  faultless : f.instFault? i = none

structure CheckedEnd (f : Function) (t : Terminator) : Prop where
  typed : ∀ v ∈ t.uses, f.Typed v
  targets : ∀ c ∈ t.successors, c < f.blocks.length

structure Verified (f : Function) : Prop where
  blocks : f.blocks ≠ []
  params : ∀ v ∈ f.params, f.Typed v
  insts : ∀ block ∈ f.blocks, ∀ i ∈ block.insts, f.CheckedInst i
  ends : ∀ block ∈ f.blocks, f.CheckedEnd block.terminator

variable {f : Function} {v : Value} {ty : Ty} {b : BlockId}

theorem typed_of_valueType (h : f.valueType v = .ok ty) : f.Typed v := by
  rw [valueType] at h
  split at h
  · next hty => exact (List.getElem?_eq_some_iff.mp hty).1
  · cases h

theorem Typed.valueType (h : f.Typed v) : ∃ ty, f.valueType v = .ok ty :=
  ⟨f.valueTypes[v], by rw [Function.valueType, List.getElem?_eq_getElem h]⟩

theorem isFloat_of_valueType (h : f.valueType v = .ok ty) : f.isFloat v = ty.isFloat := by
  rw [valueType] at h
  rw [isFloat]
  split at h
  · cases h
    rfl
  · cases h

private theorem forM_ok {α : Type} {g : α → Checked Unit} {xs : List α} (h : xs.forM g = .ok ()) :
    ∀ x ∈ xs, g x = .ok () := by
  induction xs with
  | nil => simp
  | cons x xs ih =>
    obtain ⟨_, hx, hxs⟩ := bind_eq_ok.mp h
    intro y hy
    rcases List.mem_cons.mp hy with rfl | hy
    · exact hx
    · exact ih hxs y hy

theorem typed_of_checkTyped {vs : List Value} (h : f.checkTyped vs = .ok ()) : ∀ v ∈ vs, f.Typed v := by
  intro v hv
  obtain ⟨ty, hty, -⟩ := bind_eq_ok.mp (forM_ok h v hv)
  exact typed_of_valueType hty

theorem checkedInst_of_checkInst {i : Inst} (h : f.checkInst b i = .ok ()) : f.CheckedInst i := by
  obtain ⟨_, htyped, h⟩ := bind_eq_ok.mp h
  refine ⟨typed_of_checkTyped htyped, ?_⟩
  split at h
  · cases h
  · next hnone => exact hnone

theorem checkedEnd_of_checkTerminator {t : Terminator} (h : f.checkTerminator b t = .ok ()) : f.CheckedEnd t := by
  obtain ⟨_, htyped, h⟩ := bind_eq_ok.mp h
  obtain ⟨_, htargets, -⟩ := bind_eq_ok.mp h
  refine ⟨typed_of_checkTyped htyped, fun c hc => ?_⟩
  have hone := forM_ok htargets c hc
  split at hone
  · next hlt => exact hlt
  · cases hone

theorem checked_of_checkBlocks {blocks : List Block} (h : f.checkBlocks b blocks = .ok ()) :
    ∀ block ∈ blocks, (∀ i ∈ block.insts, f.CheckedInst i) ∧ f.CheckedEnd block.terminator := by
  induction blocks generalizing b with
  | nil => simp
  | cons block blocks ih =>
    obtain ⟨_, hinsts, h⟩ := bind_eq_ok.mp h
    obtain ⟨_, hend, h⟩ := bind_eq_ok.mp h
    intro other hother
    rcases List.mem_cons.mp hother with rfl | hother
    · exact ⟨fun i hi => checkedInst_of_checkInst (forM_ok hinsts i hi), checkedEnd_of_checkTerminator hend⟩
    · exact ih h other hother

/-- What the checks of a function let through. -/
theorem verified_of_verify (h : f.verify = .ok ()) : f.Verified := by
  have hne : f.blocks ≠ [] := by
    intro hnil
    rw [verify, hnil] at h
    cases h
  rw [verify, if_neg (by simpa using hne)] at h
  obtain ⟨_, hparams, h⟩ := bind_eq_ok.mp h
  have hblocks : f.checkBlocks 0 f.blocks = .ok () := by
    split at h
    · cases h
    · exact h
  have hchecked := checked_of_checkBlocks hblocks
  exact ⟨hne, typed_of_checkTyped hparams, fun block hb => (hchecked block hb).1, fun block hb => (hchecked block hb).2⟩

end Ir.Function

namespace Selection

def classFor (f : Ir.Function) (v : Ir.Value) : RegClass := if f.isFloat v then .fpr else .gpr

def Context.scope (f : Ir.Function) (cx : Context) : Scope :=
  ⟨cx.routine.classes, cx.routine.pool.length, cx.plan.objects.length, f.blocks.length⟩

structure Context.Fine (f : Ir.Function) (S : Scope) (cx : Context) : Prop where
  values : ∀ v r, cx.values.lookup v = some r → S.class? r = some (classFor f v)
  returnAddress : ∀ i, cx.plan.returnAddress = some i → i < S.objects
  vararg : ∀ i, cx.plan.vararg = some i → i < S.objects

/-- Selection went on: nothing went out of scope, the function kept its name, and its frame was built on. -/
structure Context.Grown (f : Ir.Function) (cx cx' : Context) : Prop where
  scope : (cx.scope f).Within (cx'.scope f)
  name : cx'.routine.name = cx.routine.name
  plan : cx.plan.Reaches cx'.plan

structure Context.Leads (f : Ir.Function) (S : Scope) (dyn : Bool) (cx : Context) : Prop where
  scope : (cx.scope f).Within S
  varSized : cx.plan.hasVarSized = true → dyn = true

namespace Context.Grown

variable {f : Ir.Function} {S : Scope} {dyn : Bool} {cx cx' cx'' : Context}

theorem refl (cx : Context) : cx.Grown f cx := ⟨.refl _, rfl, .refl _⟩

theorem trans (h : cx.Grown f cx') (h' : cx'.Grown f cx'') : cx.Grown f cx'' :=
  ⟨h.scope.trans h'.scope, h'.name.trans h.name, h.plan.trans h'.plan⟩

theorem leads (h : cx.Grown f cx') (h' : cx'.Leads f S dyn) : cx.Leads f S dyn :=
  ⟨h.scope.trans h'.scope, h'.varSized ∘ h.plan.grows.varSized⟩

end Context.Grown

/-- A call whose arguments on the stack, with the return address, cannot be counted in 32 bits. -/
def OverfullCall (f : Ir.Function) (i : Ir.Inst) : Prop :=
  ∃ callee args numFixed results types, i = .call callee args numFixed results ∧ typesOf f args = .ok types ∧
    4294967296 ≤ returnAddressSize + (assignArguments types (numFixed.getD args.length)).stackSize

/-- A function that takes, or passes in a block that is kept, more on the stack than can be counted. -/
def Overfull (f : Ir.Function) : Prop :=
  4294967296 ≤ (assignArguments f.paramTypes f.paramTypes.length).stackSize ∨
    ∃ b ∈ reachable f, ∃ block, f.blocks[b]? = some block ∧ ∃ i ∈ block.insts, OverfullCall f i

/-- A selection step does not fail for a reference, aborts only for arguments that cannot be counted, and takes nothing
out of scope. If `P` holds, it appends operations that `G` holds of and gives a result that `Q` holds of, where `S` is
any scope that selection comes to later, and `dyn` tells whether the frame is of variable size then. -/
structure Selects (f : Ir.Function) (S : Scope) (dyn : Bool) (G : Pseudo → Prop) {α : Type} (P : Prop) (Q : α → Prop)
    (x : Select α) : Prop where
  grounded : ∀ cx, Grounded (Overfull f) (x.run cx)
  grows : ∀ cx a cx', x.run cx = .ok (a, cx') → cx.Grown f cx'
  gives : P → ∀ cx a cx', cx.Fine f S → x.run cx = .ok (a, cx') → cx'.Leads f S dyn →
    Q a ∧ cx'.Fine f S ∧ ∃ ms, cx'.out = cx.out ++ ms ∧ ∀ m ∈ ms, G m

namespace Selects

variable {f : Ir.Function} {S : Scope} {dyn : Bool} {G : Pseudo → Prop} {α β : Type} {P : Prop} {Q : α → Prop}
  {R : β → Prop} {x : Select α} {γ : Type} {xs : List γ}

theorem mono {P' : Prop} {Q' : α → Prop} (h : Selects f S dyn G P Q x) (hp : P' → P) (hq : P' → ∀ a, Q a → Q' a) :
    Selects f S dyn G P' Q' x where
  grounded := h.grounded
  grows := h.grows
  gives hP cx a cx' hcx hrun hS := (h.gives (hp hP) cx a cx' hcx hrun hS).imp_left (hq hP a)

theorem pure {a : α} (h : P → Q a) : Selects f S dyn G P Q (pure a) where
  grounded cx := .ok _
  grows cx b cx' hrun := by
    cases hrun
    exact .refl _
  gives hP cx b cx' hcx hrun _ := by
    cases hrun
    exact ⟨h hP, hcx, [], by simp, by simp⟩

theorem lift {x : Checked α} (h : Grounded False x) :
    Selects f S dyn G P (fun a => x = .ok a) (liftM x : Select α) where
  grounded cx := by
    cases x with
    | error e =>
      intro d hd
      cases hd
      exact h.mono e rfl
    | ok a => exact .ok _
  grows cx a cx' hrun := by
    obtain ⟨-, rfl⟩ := run_lift hrun
    exact .refl _
  gives _ cx a cx' hcx hrun _ := by
    obtain ⟨hx, rfl⟩ := run_lift hrun
    exact ⟨hx, hcx, [], by simp, by simp⟩

theorem fail {e : Error} (h : e.isDangling = false) :
    Selects f S dyn G P Q (liftM (DirectPage.fail e : Checked α) : Select α) :=
  (lift (.failed h)).mono id fun _ a ha => by cases ha

theorem bind {k : α → Select β} (hx : Selects f S dyn G P Q x) (hk : ∀ a, Selects f S dyn G (P ∧ Q a) R (k a)) :
    Selects f S dyn G P R (x >>= k) where
  grounded cx := by
    rw [StateT.run_bind]
    exact (hx.grounded cx).bind fun p _ => (hk p.1).grounded p.2
  grows cx b cx' hrun := by
    obtain ⟨a, cx1, h1, h2⟩ := run_bind hrun
    exact (hx.grows cx a cx1 h1).trans ((hk a).grows cx1 b cx' h2)
  gives hP cx b cx' hcx hrun hS := by
    obtain ⟨a, cx1, h1, h2⟩ := run_bind hrun
    obtain ⟨ha, hcx1, ms, hout, hms⟩ := hx.gives hP cx a cx1 hcx h1 (((hk a).grows cx1 b cx' h2).leads hS)
    obtain ⟨hb, hcx', ms', hout', hms'⟩ := (hk a).gives ⟨hP, ha⟩ cx1 b cx' hcx1 h2 hS
    refine ⟨hb, hcx', ms ++ ms', by rw [hout', hout, List.append_assoc], fun m hm => ?_⟩
    exact (List.mem_append.mp hm).elim (hms m) (hms' m)

/-- Steps behind a check know what it came to. -/
theorem check {x : Checked α} {k : α → Select β} (h : Grounded (Overfull f) x)
    (hk : ∀ a, x = .ok a → Selects f S dyn G P R (k a)) : Selects f S dyn G P R ((liftM x : Select α) >>= k) := by
  cases x with
  | error e =>
    refine ⟨fun cx d hd => ?_, fun cx a cx' hrun => ?_, fun _ cx a cx' _ hrun _ => ?_⟩
    · cases hd
      exact h e rfl
    · cases hrun
    · cases hrun
  | ok a => exact ⟨(hk a rfl).grounded, (hk a rfl).grows, (hk a rfl).gives⟩

theorem emit {m : Pseudo} (h : P → G m) : Selects f S dyn G P (fun _ => True) (emit m) where
  grounded cx := .ok _
  grows cx a cx' hrun := by
    cases hrun
    exact ⟨.refl _, rfl, .refl _⟩
  gives hP cx a cx' hcx hrun _ := by
    cases hrun
    exact ⟨trivial, ⟨hcx.values, hcx.returnAddress, hcx.vararg⟩, [m], rfl, by simpa using h hP⟩

theorem temp (cls : RegClass) : Selects f S dyn G P (fun r => S.class? r = some cls) (temp cls) where
  grounded cx := .ok _
  grows cx a cx' hrun := by
    cases hrun
    exact ⟨⟨List.prefix_append _ _, Nat.le_refl _, Nat.le_refl _, rfl⟩, rfl, .refl _⟩
  gives _ cx a cx' hcx hrun hS := by
    cases hrun
    refine ⟨hS.scope.class? ?_, ⟨hcx.values, hcx.returnAddress, hcx.vararg⟩, [], by simp, by simp⟩
    simp [Scope.class?, Context.scope, Routine.numVRegs]

/-- A new register with the result of an operation. -/
theorem fresh {cls : RegClass} {op : Reg → Pseudo} (h : P → ∀ r, S.class? r = some cls → G (op r)) :
    Selects f S dyn G P (fun r => S.class? r = some cls)
      (Selection.temp cls >>= fun r => Selection.emit (op r) >>= fun _ => Pure.pure r) :=
  bind (temp cls) fun r => bind (emit fun ⟨hP, hr⟩ => h hP r hr) fun _ => pure fun ⟨⟨_, hr⟩, _⟩ => hr

theorem withPlan {step : FramePlan → α × FramePlan} (op : FrameOp) (hop : op.IsSelected)
    (hstep : ∀ plan, (step plan).2 = (op.apply plan).2)
    (hgives : ∀ plan, (∀ i, plan.returnAddress = some i → i < S.objects) →
      (step plan).2.objects.length ≤ S.objects → ((step plan).2.hasVarSized = true → dyn = true) →
        Q (step plan).1 ∧ ∀ i, (step plan).2.returnAddress = some i → i < S.objects) :
    Selects f S dyn G P Q (withPlan step) where
  grounded cx := .ok _
  grows cx a cx' hrun := by
    cases hrun
    have hreach : cx.plan.Reaches (step cx.plan).2 := .step hop (hstep cx.plan)
    exact ⟨⟨List.prefix_refl _, Nat.le_refl _, hreach.grows.length_objects, rfl⟩, rfl, hreach⟩
  gives _ cx a cx' hcx hrun hS := by
    cases hrun
    obtain ⟨hq, hreturn⟩ := hgives cx.plan hcx.returnAddress hS.scope.objects hS.varSized
    refine ⟨hq, ⟨hcx.values, hreturn, fun i hi => hcx.vararg i ?_⟩, [], by simp, by simp⟩
    rw [← hop.vararg cx.plan, ← hstep]
    exact hi

/-- Changes to the frame that concern no object. -/
theorem notePlan {note : FramePlan → FramePlan} (op : FrameOp) (hop : op.IsSelected)
    (hnote : ∀ plan, note plan = (op.apply plan).2) (hreturn : ∀ plan, (note plan).returnAddress = plan.returnAddress) :
    Selects f S dyn G P (fun _ => True) (Selection.withPlan fun plan => ((), note plan)) :=
  withPlan op hop hnote fun plan hr _ _ => ⟨trivial, fun i hi => hr i (hreturn plan ▸ hi)⟩

/-- Changes to the routine under construction that concern neither its name nor registers and constants. -/
theorem noteRoutine (note : Routine → Routine) (hclasses : ∀ r, (note r).classes = r.classes)
    (hpool : ∀ r, (note r).pool = r.pool) (hname : ∀ r, (note r).name = r.name) :
    Selects f S dyn G P (fun _ => True) (modify fun cx => { cx with routine := note cx.routine } : Select PUnit) where
  grounded cx := .ok _
  grows cx a cx' hrun := by
    cases hrun
    exact ⟨⟨by simp [Context.scope, hclasses], by simp [Context.scope, hpool], Nat.le_refl _, rfl⟩, hname _, .refl _⟩
  gives _ cx a cx' hcx hrun _ := by
    cases hrun
    exact ⟨trivial, ⟨hcx.values, hcx.returnAddress, hcx.vararg⟩, [], by simp, by simp⟩

/-- Steps that first change the routine under construction. -/
theorem update {change : Context → Routine} {k : Context → Select β} (P' : Context → Prop)
    (hgrows : ∀ cx : Context, cx.routine.classes <+: (change cx).classes ∧
      cx.routine.pool.length ≤ (change cx).pool.length ∧ (change cx).name = cx.routine.name)
    (hgives : ∀ cx, P → (change cx).pool.length ≤ S.constants → P' cx)
    (hk : ∀ cx, Selects f S dyn G (P' cx) R (k cx)) :
    Selects f S dyn G P R (get >>= fun cx => set { cx with routine := change cx } >>= fun _ => k cx) where
  grounded cx := (hk cx).grounded _
  grows cx b cx' hrun := by
    have hstep : cx.Grown f { cx with routine := change cx } :=
      ⟨⟨(hgrows cx).1, (hgrows cx).2.1, Nat.le_refl _, rfl⟩, (hgrows cx).2.2, .refl _⟩
    exact hstep.trans ((hk cx).grows _ b cx' hrun)
  gives hP cx b cx' hcx hrun hS := by
    have hpool := (((hk cx).grows _ b cx' hrun).leads hS).scope.constants
    exact (hk cx).gives (hgives cx hP hpool) { cx with routine := change cx } b cx'
      ⟨hcx.values, hcx.returnAddress, hcx.vararg⟩ hrun hS

theorem forM {step : γ → Select PUnit} (h : ∀ x ∈ xs, Selects f S dyn G P (fun _ => True) (step x)) :
    Selects f S dyn G P (fun _ => True) (xs.forM step) := by
  induction xs with
  | nil => exact pure fun _ => trivial
  | cons x xs ih =>
    exact bind (h x (by simp)) fun _ => (ih fun y hy => h y (by simp [hy])).mono And.left fun _ _ => id

theorem filterMapM {step : γ → Select (Option β)}
    (h : ∀ x ∈ xs, Selects f S dyn G P (fun o => ∀ b, o = some b → R b) (step x)) :
    Selects f S dyn G P (fun bs => ∀ b ∈ bs, R b) (xs.filterMapM step) := by
  have hloop (bs : List β) : Selects f S dyn G (P ∧ ∀ b ∈ bs, R b) (fun bs => ∀ b ∈ bs, R b)
      (List.filterMapM.loop step xs bs) := by
    induction xs generalizing bs with
    | nil => exact pure fun ⟨_, hbs⟩ b hb => hbs b (List.mem_reverse.mp hb)
    | cons x xs ih =>
      refine bind ((h x (by simp)).mono And.left fun _ _ => id) fun o => ?_
      have hrest := ih fun y hy => h y (by simp [hy])
      cases o with
      | none => exact (hrest bs).mono And.left fun _ _ => id
      | some b =>
        refine (hrest (b :: bs)).mono (fun ⟨⟨hP, hbs⟩, hb⟩ => ⟨hP, fun c hc => ?_⟩) fun _ _ => id
        rcases List.mem_cons.mp hc with rfl | hc
        · exact hb c rfl
        · exact hbs c hc
  exact (hloop []).mono (fun hP => ⟨hP, by simp⟩) fun _ _ => id

end Selects

section Rules

variable {f : Ir.Function} {S : Scope} {dyn : Bool} {strict P : Prop} {G : Pseudo → Prop} {v : Ir.Value} {ty : Ir.Ty}

theorem grounded_valueType (h : f.Typed v) : Grounded False (f.valueType v) := by
  obtain ⟨ty, hty⟩ := h.valueType
  rw [hty]
  exact .ok ty

theorem grounded_typesOf {vs : List Ir.Value} (h : ∀ v ∈ vs, f.Typed v) : Grounded False (typesOf f vs) :=
  .mapM fun v hv => grounded_valueType (h v hv)

theorem grounded_legal (op : Operation) (ty : Ir.Ty) : Grounded False (legal op ty) := by
  refine .bind (.orFail rfl _) fun act _ => ?_
  split
  · exact .failed rfl
  · exact .ok _

theorem grounded_formatOf (use : String) (ty : Ir.Ty) : Grounded False (formatOf use ty) := .orFail rfl _

theorem grounded_precision (h : f.Typed v) : Grounded False (precision f v) :=
  .bind (grounded_valueType h) fun ty _ => grounded_formatOf _ ty

theorem grounded_assignReturns (types : List Ir.Ty) : Grounded False (assignReturns types) := by
  unfold assignReturns
  split
  · exact .ok _
  · exact .ok _
  · exact .ok _
  · split
    · exact .ok _
    · exact .failed rfl

/-- Arguments are placed unless they need more bytes than can be counted. -/
theorem grounded_planArguments {types : List Ir.Ty} {fixed : Nat} {stops : Prop}
    (h : 4294967296 ≤ (assignArguments types fixed).stackSize → stops) : Grounded stops (planArguments types fixed) :=
  (grounded_unsigned32 h).bind fun _ _ => .ok _

theorem bankOf_eq_classFor (h : f.valueType v = .ok ty) : bankOf ty = classFor f v := by
  rw [bankOf, classFor, Ir.Function.isFloat_of_valueType h]

theorem storage_classFor_general (h : f.isFloat v = false) : (classFor f v).storage = .general := by
  rw [classFor, h]
  rfl

theorem storage_classFor_float (h : f.isFloat v = true) : (classFor f v).storage = .floatingPoint := by
  rw [classFor, h]
  rfl

theorem storage_classFor (h : f.isFloat v = ty.isFloat) : (classFor f v).storage = (bankOf ty).storage := by
  rw [classFor, bankOf, h]

theorem storage_bankOf_float (h : ty.isFloat = true) : (bankOf ty).storage = .floatingPoint := by
  rw [bankOf, if_pos h]
  rfl

theorem storage_bankOf_general (h : ¬ty.isFloat = true) : (bankOf ty).storage = .general := by
  rw [bankOf, if_neg h]
  rfl

def Operation.isGeneral : Operation → Bool
  | const | unary _ | convert .fpToSi | convert .siToFp => true
  | globalAddress | externalSymbol | blockAddress | frameIndex | frameAddr | returnAddr | dynAlloc | vaStart => true
  | _ => false

def Operation.isFloating : Operation → Bool
  | fconst | fsetCc | convert .fpExt | convert .fpTrunc => true
  | _ => false

variable {op : Operation} {act : Action}

theorem action?_of_legal (h : legal op ty = .ok act) : action? op ty = some act := by
  obtain ⟨act', haction, h⟩ := bind_eq_ok.mp h
  have hsome := orFail_eq_ok.mp haction
  split at h
  · cases h
  · cases h
    exact hsome

theorem isFloat_of_isGeneral (h : legal op ty = .ok act) (hop : op.isGeneral = true) : ty.isFloat = false := by
  have hact := action?_of_legal h
  cases ty with
  | i8 | i16 | i32 | ptr => rfl
  | f32 | f64 =>
    cases op with
    | convert op => cases op <;> cases hop <;> cases hact
    | _ => cases hop <;> cases hact

theorem isFloat_of_isFloating (h : legal op ty = .ok act) (hop : op.isFloating = true) : ty.isFloat = true := by
  have hact := action?_of_legal h
  cases ty with
  | f32 | f64 => rfl
  | i8 | i16 | i32 | ptr =>
    cases op with
    | convert op => cases op <;> cases hop <;> cases hact
    | _ => cases hop <;> cases hact

theorem isFloat_of_precision {prec : Precision} (h : precision f v = .ok prec) : f.isFloat v = true := by
  obtain ⟨ty, hty, h⟩ := bind_eq_ok.mp h
  have hprec := orFail_eq_ok.mp h
  rw [Ir.Function.isFloat_of_valueType hty]
  cases ty with
  | f32 | f64 => rfl
  | _ => cases hprec

theorem run_reg (h : f.valueType v = .ok ty) (cx : Context) :
    (reg f v).run cx = .ok (match cx.values.lookup v with
      | some r => (r, cx)
      | none => (.virt cx.routine.numVRegs,
          { cx with
            routine := (cx.routine.newVReg (bankOf ty)).2
            values := (v, .virt cx.routine.numVRegs) :: cx.values })) := by
  change (match cx.values.lookup v with | some r => _ | none => _ : Select Reg).run cx = _
  cases cx.values.lookup v with
  | some r => rfl
  | none =>
    dsimp only
    rw [h]
    rfl

namespace Selects

variable {v : Ir.Value}

theorem reg (hv : f.Typed v) : Selects f S dyn G P (fun r => S.class? r = some (classFor f v)) (reg f v) := by
  obtain ⟨ty, hty⟩ := hv.valueType
  refine ⟨fun cx => ?_, fun cx a cx' hrun => ?_, fun _ cx a cx' hcx hrun hS => ?_⟩
  · rw [run_reg hty]
    exact .ok _
  · rw [run_reg hty] at hrun
    split at hrun
    · cases hrun
      exact .refl _
    · cases hrun
      exact ⟨⟨List.prefix_append _ _, Nat.le_refl _, Nat.le_refl _, rfl⟩, rfl, .refl _⟩
  · rw [run_reg hty] at hrun
    split at hrun
    · next hr =>
      cases hrun
      exact ⟨hcx.values v a hr, hcx, [], by simp, by simp⟩
    · cases hrun
      have hnew : S.class? (.virt cx.routine.numVRegs) = some (classFor f v) := by
        refine hS.scope.class? ?_
        rw [← bankOf_eq_classFor hty]
        simp [Scope.class?, Context.scope, Routine.newVReg, Routine.numVRegs]
      refine ⟨hnew, ⟨fun u q hq => ?_, hcx.returnAddress, hcx.vararg⟩, [], by simp, by simp⟩
      rw [List.lookup_cons] at hq
      split at hq
      · next he =>
        cases hq
        rw [eq_of_beq he]
        exact hnew
      · exact hcx.values u q hq

theorem regIn (strict : Prop) (bank : StorageClass) (hv : f.Typed v) (h : P → strict → (classFor f v).storage = bank) :
    Selects f S dyn G P (S.Meets strict bank) (Selection.reg f v) :=
  (reg hv).mono id fun hP r hr =>
    ⟨⟨_, hr⟩, fun hstrict => by rw [Scope.storage?_of_class? hr, h hP hstrict]⟩

theorem general (strict : Prop) (hv : f.Typed v) (h : P → strict → f.isFloat v = false) :
    Selects f S dyn G P (S.Meets strict .general) (Selection.reg f v) :=
  regIn strict _ hv fun hP hstrict => storage_classFor_general (h hP hstrict)

theorem floating (strict : Prop) (hv : f.Typed v) (h : P → strict → f.isFloat v = true) :
    Selects f S dyn G P (S.Meets strict .floatingPoint) (Selection.reg f v) :=
  regIn strict _ hv fun hP hstrict => storage_classFor_float (h hP hstrict)

/-- A new register for an integer. -/
theorem tempGeneral (strict : Prop) (cls : RegClass) (hcls : cls.storage = .general) :
    Selects f S dyn G P (fun r => S.class? r = some cls ∧ S.Meets strict .general r) (Selection.temp cls) :=
  (temp cls).mono id fun _ _ hr => ⟨hr, Scope.meets_of_class? hr hcls⟩

/-- A new register with the result of an integer operation. -/
theorem freshGeneral {op : Reg → Pseudo} (h : P → ∀ r, S.Meets strict .general r → G (op r)) :
    Selects f S dyn G P (S.Meets strict .general)
      (Selection.temp .gpr >>= fun r => Selection.emit (op r) >>= fun _ => Pure.pure r) :=
  (fresh fun hP r hr => h hP r (Scope.meets_of_class? hr rfl)).mono id fun _ _ hr => Scope.meets_of_class? hr rfl

end Selects

def Straight (S : Scope) (dyn : Bool) (strict : Prop) (m : Pseudo) : Prop :=
  m.InScope S strict ∧ m.isStraight dyn = true

theorem straight_plain {m : Pseudo} (hm : m.isPlain = true) (ht : m.isStraight dyn = true)
    (h : ∀ p ∈ m.demands, S.Meets strict p.2 p.1) : Straight S dyn strict m := ⟨.plain hm h, ht⟩

end Rules

end Selection

end DirectPage
