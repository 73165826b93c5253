import DirectPage.Proofs.ScopedRules

/-! Selection keeps to its scope.

Blocks that are kept end with an operation that control does not pass, the others are empty. No operation refers to
anything that is not there, and no operand is in the wrong bank unless the function puts it there. -/
namespace DirectPage

/-- A block that control leaves by its last operation, and by no other unless it branches. -/
def Ended (block : List Pseudo) : Prop :=
  ∃ (body : List Pseudo) (last : Pseudo), block = body ++ [last] ∧ (∀ m ∈ body, m.passes = true) ∧ last.passes = false

namespace Ir

/-- The operands that checks do not look at are in the banks that the instruction uses them in. -/
def Inst.unmixed (f : Function) : Inst → Bool
  | .binary _ _ _ rhs => rhs.values.all (!f.isFloat ·)
  | .setCc _ dst lhs rhs => (dst :: lhs :: rhs.values).all (!f.isFloat ·)
  | .fsetCc _ dst _ rhs => !f.isFloat dst && f.isFloat rhs
  | .select dst cond onTrue onFalse =>
    !f.isFloat cond && f.isFloat onTrue == f.isFloat dst && f.isFloat onFalse == f.isFloat dst
  | .selectCc _ dst lhs rhs onTrue onFalse =>
    (lhs :: rhs.values).all (!f.isFloat ·) && f.isFloat onTrue == f.isFloat dst && f.isFloat onFalse == f.isFloat dst
  | .fselectCc _ dst _ rhs onTrue onFalse =>
    f.isFloat rhs && f.isFloat onTrue == f.isFloat dst && f.isFloat onFalse == f.isFloat dst
  | .shiftParts _ dstLo dstHi lo hi amount => (dstLo :: dstHi :: lo :: hi :: amount.values).all (!f.isFloat ·)
  | .load r ty _ _ | .store r ty _ => f.isFloat r == ty.isFloat
  | .dynAlloca _ size _ => !f.isFloat size
  | .call callee _ _ _ => callee.values.all (!f.isFloat ·)
  | _ => true

def Terminator.unmixed (f : Function) : Terminator → Bool
  | .branch cond _ _ => !f.isFloat cond
  | .branchCc _ lhs rhs _ _ => (lhs :: rhs.values).all (!f.isFloat ·)
  | .fbranchCc _ _ rhs _ _ => f.isFloat rhs
  | _ => true

def Block.unmixed (f : Function) (block : Block) : Bool :=
  block.insts.all (Inst.unmixed f) && block.terminator.unmixed f

def Function.unmixed (f : Function) : Bool :=
  (Selection.reachable f).all fun b => (f.blocks[b]?).all (Block.unmixed f)

end Ir

namespace Selection

section Rules

variable {f : Ir.Function} {S : Scope} {dyn : Bool} {strict P : Prop} {succs : List Ir.BlockId} {m : Pseudo}

/-- No instruction fails for a reference; what it emits stays in scope, and within its banks if its operands do. -/
theorem selects_selectInst (hslots : f.slots.length ≤ S.objects) (hblocks : S.blocks = f.blocks.length) {i : Ir.Inst}
    (h : f.CheckedInst i) (hu : strict → i.unmixed f = true) (hroom : OverfullCall f i → Overfull f) :
    Selects f S dyn (Straight S dyn strict) P (fun _ => True) (selectInst f i) := by
  have htyped := h.typed
  cases i with
  | const dst value => exact selects_const (htyped dst (by simp [Ir.Inst.defs]))
  | fconst dst value => exact selects_fconst (htyped dst (by simp [Ir.Inst.defs]))
  | copy dst src => exact selects_copy (htyped dst (by simp [Ir.Inst.defs])) (htyped src (by simp [Ir.Inst.uses]))
  | binary op dst lhs rhs => exact selects_binary h (by simpa [Ir.Inst.unmixed] using hu)
  | unary op dst src => exact selects_unary h
  | fbinary op dst lhs rhs => exact selects_fbinary h
  | funary op dst src => exact selects_funary h
  | convert op dst src =>
    exact selects_convert (htyped dst (by simp [Ir.Inst.defs])) (htyped src (by simp [Ir.Inst.uses]))
  | setCc cc dst lhs rhs =>
    simp only [Ir.Inst.defs, Ir.Inst.uses, List.singleton_append, List.forall_mem_cons] at htyped
    simp only [Ir.Inst.unmixed, List.all_cons, Bool.and_eq_true, Bool.not_eq_true', List.all_eq_true] at hu
    refine .bind (.lift (grounded_valueType htyped.2.1)) fun ty => .bind (.lift (grounded_legal _ _)) fun _ => ?_
    exact .bind (selects_valueCompare htyped.2.1 htyped.2.2 fun hs => (hu hs).2) fun _ =>
      selects_emitSet htyped.1 (fun hs => (hu hs).1) And.right
  | fsetCc cc dst lhs rhs =>
    simp only [Ir.Inst.defs, Ir.Inst.uses, List.singleton_append, List.forall_mem_cons] at htyped
    simp only [Ir.Inst.unmixed, Bool.and_eq_true, Bool.not_eq_true'] at hu
    exact .bind (selects_floatCompare htyped.2.1 htyped.2.2.1 fun hs => (hu hs).2) fun _ =>
      selects_emitSet htyped.1 (fun hs => (hu hs).1) And.right
  | select dst cond onTrue onFalse =>
    simp only [Ir.Inst.defs, Ir.Inst.uses, List.singleton_append, List.forall_mem_cons] at htyped
    simp only [Ir.Inst.unmixed, Bool.and_eq_true, Bool.not_eq_true', beq_iff_eq] at hu
    exact selects_selectCc htyped.1 htyped.2.1 (by simp [Ir.Operand.values]) htyped.2.2.1 htyped.2.2.2.1
      (fun hs => ⟨(hu hs).1.1, by simp [Ir.Operand.values]⟩) fun hs => ⟨(hu hs).1.2, (hu hs).2⟩
  | selectCc cc dst lhs rhs onTrue onFalse =>
    simp only [Ir.Inst.defs, Ir.Inst.uses, List.cons_append, List.nil_append, List.forall_mem_cons,
      List.forall_mem_append] at htyped
    simp only [Ir.Inst.unmixed, List.all_cons, Bool.and_eq_true, Bool.not_eq_true', List.all_eq_true, beq_iff_eq] at hu
    exact selects_selectCc htyped.1 htyped.2.1 htyped.2.2.1 htyped.2.2.2.1 htyped.2.2.2.2.1 (fun hs => (hu hs).1.1)
      fun hs => ⟨(hu hs).1.2, (hu hs).2⟩
  | fselectCc cc dst lhs rhs onTrue onFalse =>
    simp only [Ir.Inst.defs, Ir.Inst.uses, List.singleton_append, List.forall_mem_cons] at htyped
    simp only [Ir.Inst.unmixed, Bool.and_eq_true, beq_iff_eq] at hu
    refine .bind (.lift (grounded_valueType htyped.1)) fun ty => .bind (.lift (grounded_legal _ _)) fun _ => ?_
    exact .bind (selects_floatCompare htyped.2.1 htyped.2.2.1 fun hs => (hu hs).1.1) fun _ =>
      selects_emitSelect htyped.1 htyped.2.2.2.1 htyped.2.2.2.2.1 (fun hs => ⟨(hu hs).1.2, (hu hs).2⟩) And.right
  | shiftParts op dstLo dstHi lo hi amount =>
    refine selects_shiftParts h fun hs v hv => ?_
    simpa using List.all_eq_true.mp (hu hs) v hv
  | load dst ty ext addr => exact selects_load hslots h (by simpa [Ir.Inst.unmixed] using hu)
  | store src ty addr => exact selects_store hslots h (by simpa [Ir.Inst.unmixed] using hu)
  | globalAddr dst symbol => exact selects_address (htyped dst (by simp [Ir.Inst.defs])) rfl trivial
  | externalSymbol dst name => exact selects_address (htyped dst (by simp [Ir.Inst.defs])) rfl trivial
  | blockAddr dst block =>
    refine selects_address (htyped dst (by simp [Ir.Inst.defs])) rfl ?_
    have hlt : block < f.blocks.length := by simpa [Ir.Function.instFault?] using h.faultless
    exact Nat.lt_of_lt_of_eq hlt hblocks.symm
  | slotAddr dst slot =>
    refine selects_slotAddr hslots (htyped dst (by simp [Ir.Inst.defs])) ?_
    simpa [Ir.Function.instFault?] using h.faultless
  | frameAddr dst depth => exact selects_frameAddr (htyped dst (by simp [Ir.Inst.defs]))
  | returnAddr dst depth => exact selects_returnAddr (htyped dst (by simp [Ir.Inst.defs]))
  | dynAlloca dst size align =>
    exact selects_dynAlloca (htyped dst (by simp [Ir.Inst.defs])) (htyped size (by simp [Ir.Inst.uses]))
      (by simpa [Ir.Inst.unmixed] using hu)
  | vaStart list => exact selects_vaStart (htyped list (by simp [Ir.Inst.uses]))
  | call callee args numFixed results =>
    refine selects_call (fun v hv => htyped v (by simp [Ir.Inst.uses, hv]))
      (fun v hv => htyped v (by simp [Ir.Inst.defs, hv])) (fun v hv => htyped v (by simp [Ir.Inst.uses, hv])) ?_ hroom
    simpa [Ir.Inst.unmixed] using hu

/-- Operations before the last one of a block: in scope, control may run through them, and they lead to targets only. -/
structure Passing (S : Scope) (dyn : Bool) (strict : Prop) (targets : Ir.BlockId → Prop) (m : Pseudo) : Prop where
  scope : m.InScope S strict
  passes : m.passes = true
  body : BodyOp targets true dyn m

theorem Straight.passing (h : Straight S dyn strict m) (targets : Ir.BlockId → Prop) :
    Passing S dyn strict targets m := by
  refine ⟨h.1, Pseudo.passes_of_not_isTerminator (Pseudo.isTerminator_of_isStraight h.2),
    bodyOp_of_isStraight h.2 fun r hr => ?_⟩
  rintro rfl
  have harg := h.1.result _ hr
  revert harg
  decide

/-- A selection step that ends a block: as any other, and the last operation, and no other, lets no control pass. -/
structure Ends (f : Ir.Function) (S : Scope) (dyn : Bool) (strict : Prop) (succs : List Ir.BlockId) (P : Prop)
    (x : Select Unit) : Prop where
  grounded : ∀ cx, Grounded (Overfull f) (x.run cx)
  grows : ∀ cx a cx', x.run cx = .ok (a, cx') → cx.Grown f cx'
  gives : P → ∀ cx a cx', cx.Fine f S → x.run cx = .ok (a, cx') → cx'.Leads f S dyn → cx'.Fine f S ∧
    ∃ ms last, cx'.out = cx.out ++ ms ++ [last] ∧ (∀ m ∈ ms, Passing S dyn strict (· ∈ succs) m) ∧
      last.InScope S strict ∧ BodyOp (· ∈ succs) true dyn last ∧ last.passes = false

/-- An operation that sends control to a successor, if anywhere. -/
theorem bodyOp_of_leads (hframe : m.isFrameOp = false) (hdyn : m.isDynAlloc = false) (hdefs : m.defs = [])
    (htarget : ∀ c ∈ m.target?, c ∈ succs) : BodyOp (· ∈ succs) true dyn m :=
  bodyOp_of_target hframe hdyn (by simp [hdefs]) htarget

theorem Ends.emit (h : m.InScope S strict) (hm : m.passes = false) (hbody : BodyOp (· ∈ succs) true dyn m) :
    Ends f S dyn strict succs P (emit m) where
  grounded cx := .ok _
  grows cx a cx' hrun := by
    cases hrun
    exact ⟨.refl _, rfl, .refl _⟩
  gives _ cx a cx' hcx hrun _ := by
    cases hrun
    exact ⟨⟨hcx.values, hcx.returnAddress, hcx.vararg⟩, [], m, by simp, by simp, h, hbody, hm⟩

theorem Ends.bind {α : Type} {Q : α → Prop} {x : Select α} {k : α → Select Unit}
    (hx : Selects f S dyn (Passing S dyn strict (· ∈ succs)) P Q x)
    (hk : ∀ a, Ends f S dyn strict succs (P ∧ Q a) (k a)) : Ends f S dyn strict succs P (x >>= k) where
  grounded cx := by
    rw [StateT.run_bind]
    exact (hx.grounded cx).bind fun p _ => (hk p.1).grounded p.2
  grows cx b cx' hrun := by
    obtain ⟨a, cx1, h1, h2⟩ := run_bind hrun
    exact (hx.grows cx a cx1 h1).trans ((hk a).grows cx1 b cx' h2)
  gives hP cx b cx' hcx hrun hS := by
    obtain ⟨a, cx1, h1, h2⟩ := run_bind hrun
    obtain ⟨ha, hcx1, ms, hout, hms⟩ := hx.gives hP cx a cx1 hcx h1 (((hk a).grows cx1 b cx' h2).leads hS)
    obtain ⟨hcx', ms', last, hout', hms', hlast⟩ := (hk a).gives ⟨hP, ha⟩ cx1 b cx' hcx1 h2 hS
    refine ⟨hcx', ms ++ ms', last, by rw [hout', hout, List.append_assoc cx.out], fun m hm => ?_, hlast⟩
    exact (List.mem_append.mp hm).elim (hms m) (hms' m)

variable {thenBlock elseBlock : Ir.BlockId}

/-- A branch ends its block for one of two. -/
theorem ends_emitBranch {fused : Fused} (h : P → fused.InScope S strict) :
    Ends f S dyn strict [thenBlock, elseBlock] P (emitBranch fused thenBlock elseBlock) := by
  cases fused with
  | constant b =>
    refine .emit (.plain rfl (by simp)) rfl (bodyOp_of_leads rfl rfl rfl ?_)
    cases b <;> simp [Pseudo.target?]
  | compare cmp =>
    refine .bind (.emit fun hP => ⟨.plain rfl fun p hp => ?_, rfl,
      bodyOp_of_leads rfl rfl rfl (by simp [Pseudo.target?])⟩)
      fun _ => .emit (.plain rfl (by simp)) rfl (bodyOp_of_leads rfl rfl rfl (by simp [Pseudo.target?]))
    obtain ⟨r, hr, rfl⟩ := List.mem_map.mp hp
    exact h hP r hr

theorem ends_branchCc {cc : CondCode} {lhs : Ir.Value} {rhs : Ir.Operand} (hl : f.Typed lhs)
    (hr : ∀ v ∈ rhs.values, f.Typed v)
    (hu : strict → f.isFloat lhs = false ∧ ∀ v ∈ rhs.values, f.isFloat v = false) :
    Ends f S dyn strict [thenBlock, elseBlock] P (branchCc f cc lhs rhs thenBlock elseBlock) := by
  refine .bind (.lift (grounded_valueType hl)) fun ty => .bind (.lift (grounded_legal _ _)) fun _ => ?_
  exact .bind (selects_valueCompare hl hr hu) fun _ => ends_emitBranch And.right

/-- The end of a block, too. -/
theorem ends_selectTerminator {t : Ir.Terminator} (h : f.CheckedEnd t) (hu : strict → t.unmixed f = true) :
    Ends f S dyn strict t.successors P (selectTerminator f t) := by
  have htyped := h.typed
  cases t with
  | jump target =>
    exact .emit (.plain rfl (by simp)) rfl
      (bodyOp_of_leads rfl rfl rfl (by simp [Pseudo.target?, Ir.Terminator.successors]))
  | branch cond thenBlock elseBlock =>
    refine ends_branchCc (htyped cond (by simp [Ir.Terminator.uses])) (by simp [Ir.Operand.values]) fun hs =>
      ⟨by simpa [Ir.Terminator.unmixed] using hu hs, by simp [Ir.Operand.values]⟩
  | branchCc cc lhs rhs thenBlock elseBlock =>
    simp only [Ir.Terminator.uses, List.forall_mem_cons] at htyped
    simp only [Ir.Terminator.unmixed, List.all_cons, Bool.and_eq_true, Bool.not_eq_true', List.all_eq_true] at hu
    exact ends_branchCc htyped.1 htyped.2 hu
  | fbranchCc cc lhs rhs thenBlock elseBlock =>
    simp only [Ir.Terminator.uses, List.forall_mem_cons] at htyped
    exact .bind (selects_floatCompare htyped.1 htyped.2.1 (by simpa [Ir.Terminator.unmixed] using hu)) fun _ =>
      ends_emitBranch And.right
  | ret values =>
    refine .bind (.lift (grounded_legal _ _)) fun _ => .bind (.lift (grounded_typesOf htyped)) fun types => ?_
    refine .bind (.lift (grounded_assignReturns _)) fun regs => ?_
    refine .bind (.forM fun p hp => ?_) fun _ => .emit (.plain rfl (by simp)) rfl (bodyOp_of_defs rfl rfl rfl rfl)
    have hpasses (hP : typesOf f values = .ok types ∧ assignReturns types = .ok regs) :
        ∃ ty, f.valueType p.1 = .ok ty ∧ Passes ty p.2 := by
      obtain ⟨ty, hval, hmem⟩ := valueType_of_zip hP.1 hp
      exact ⟨ty, hval, assignReturns_passes hP.2 hmem⟩
    refine .bind (.regIn strict p.2.storage (htyped p.1 (List.of_mem_zip hp).1) fun hP _ => ?_) fun s => .emit ?_
    · obtain ⟨ty, hval, hpass⟩ := hpasses ⟨hP.1.2, hP.2⟩
      rw [hpass.2]
      exact storage_classFor (Ir.Function.isFloat_of_valueType hval)
    · rintro ⟨hP, hs⟩
      obtain ⟨ty, -, hpass⟩ := hpasses ⟨hP.1.2, hP.2⟩
      exact Straight.passing ⟨.copyTo hpass.1 hs, rfl⟩ _
  | unreachable => exact .emit (.plain rfl (by simp)) rfl (bodyOp_of_defs rfl rfl rfl rfl)

end Rules

section Blocks

variable {f : Ir.Function} {S : Scope} {dyn : Bool} {strict : Prop} {targets : Ir.BlockId → Prop}
  {live : List Ir.BlockId}

structure LaidBlock (S : Scope) (dyn : Bool) (strict : Prop) (targets : Ir.BlockId → Prop) (before row : List Pseudo) :
    Prop where
  ended : Ended row
  opens : before <+: row
  scope : ∀ m ∈ row, m.InScope S strict
  body : ∀ m ∈ row, BodyOp targets true dyn m

/-- Steps that give blocks, numbered from `b` on: those that are live end and stay in scope, the others are empty.
Operations that are there before begin the first block. -/
structure Lays (f : Ir.Function) (S : Scope) (dyn : Bool) (strict : Prop) (targets : Ir.BlockId → Prop)
    (live : List Ir.BlockId) (b : Nat) (x : Select (List (List Pseudo))) : Prop where
  grounded : ∀ cx, Grounded (Overfull f) (x.run cx)
  grows : ∀ cx rows cx', x.run cx = .ok (rows, cx') → cx.Grown f cx'
  gives : ∀ cx rows cx', cx.Fine f S → (∀ m ∈ cx.out, Passing S dyn strict targets m) → x.run cx = .ok (rows, cx') →
    cx'.Leads f S dyn → ∀ (i : Nat) row, rows[i]? = some row →
      (b + i ∈ live → LaidBlock S dyn strict targets (if i = 0 then cx.out else []) row) ∧ (b + i ∉ live → row = [])

theorem Lays.nil (b : Nat) : Lays f S dyn strict targets live b (pure []) where
  grounded cx := .ok _
  grows cx rows cx' hrun := by
    cases hrun
    exact .refl _
  gives cx rows cx' _ _ hrun _ i row hrow := by
    cases hrun
    cases hrow

variable {b : Nat} {blocks : List Ir.Block} {x : Select (List (List Pseudo))}

/-- A block that is not kept is left empty. -/
theorem Lays.skip (hb : b ∉ live) (hx : Lays f S dyn strict targets live (b + 1) x) :
    Lays f S dyn strict targets live b ((pure [] : Select (List Pseudo)) >>= fun head => x >>= fun rows =>
      pure (head :: rows)) where
  grounded cx := by
    change Grounded _ ((x >>= fun rows => (pure ([] :: rows) : Select _)).run cx)
    rw [StateT.run_bind]
    exact (hx.grounded cx).bind fun p _ => .ok _
  grows cx rows cx' hrun := by
    obtain ⟨_, _, hhead, hrun⟩ := run_bind hrun
    cases hhead
    obtain ⟨tail, cx1, htail, hrun⟩ := run_bind hrun
    cases hrun
    exact hx.grows _ _ _ htail
  gives cx rows cx' hcx hout hrun hS i row hrow := by
    obtain ⟨_, _, hhead, hrun⟩ := run_bind hrun
    cases hhead
    obtain ⟨tail, cx1, htail, hrun⟩ := run_bind hrun
    cases hrun
    cases i with
    | zero =>
      cases hrow
      exact ⟨fun h => absurd h hb, fun _ => rfl⟩
    | succ i =>
      rw [show b + (i + 1) = b + 1 + i by omega]
      obtain ⟨hlaid, hempty⟩ := hx.gives _ _ _ hcx hout htail hS i row hrow
      exact ⟨fun h => ⟨(hlaid h).ended, List.nil_prefix, (hlaid h).scope, (hlaid h).body⟩, hempty⟩

/-- A block that is kept takes what is there, and leaves nothing to the next one. -/
theorem Lays.block {block : Ir.Block} (hb : b ∈ live)
    (hinsts : Selects f S dyn (Straight S dyn strict) True (fun _ => True) (block.insts.forM (selectInst f)))
    (hend : Ends f S dyn strict block.terminator.successors True (selectTerminator f block.terminator))
    (hleads : ∀ c ∈ block.terminator.successors, targets c) (hx : Lays f S dyn strict targets live (b + 1) x) :
    Lays f S dyn strict targets live b (selectBlock f block >>= fun head => x >>= fun rows => pure (head :: rows)) where
  grounded cx := by
    rw [StateT.run_bind, selectBlock, StateT.run_bind]
    refine .bind ((hinsts.grounded cx).bind fun p _ => ?_) fun q _ => ?_
    · rw [StateT.run_bind]
      exact (hend.grounded p.2).bind fun q _ => .ok _
    · rw [StateT.run_bind]
      exact (hx.grounded q.2).bind fun p _ => .ok _
  grows cx rows cx' hrun := by
    obtain ⟨head, cx3, hhead, hrun⟩ := run_bind hrun
    obtain ⟨tail, cx4, htail, hrun⟩ := run_bind hrun
    cases hrun
    obtain ⟨_, cx1, h1, hhead⟩ := run_bind hhead
    obtain ⟨_, cx2, h2, hhead⟩ := run_bind hhead
    cases hhead
    have hrest := hx.grows { cx2 with out := [] } _ _ htail
    exact ((hinsts.grows _ _ _ h1).trans (hend.grows _ _ _ h2)).trans ⟨hrest.scope, hrest.name, hrest.plan⟩
  gives cx rows cx' hcx hout hrun hS i row hrow := by
    obtain ⟨head, cx3, hhead, hrun⟩ := run_bind hrun
    obtain ⟨tail, cx4, htail, hrun⟩ := run_bind hrun
    cases hrun
    obtain ⟨_, cx1, h1, hhead⟩ := run_bind hhead
    obtain ⟨_, cx2, h2, hhead⟩ := run_bind hhead
    cases hhead
    have hS2 := (hx.grows { cx2 with out := [] } _ _ htail).leads hS
    have hS2 : cx2.Leads f S dyn := ⟨hS2.scope, hS2.varSized⟩
    obtain ⟨-, hcx1, ms, hout1, hms⟩ := hinsts.gives trivial cx _ cx1 hcx h1 ((hend.grows _ _ _ h2).leads hS2)
    obtain ⟨hcx2, ms', last, hout2, hms', hlast, hbody, hstop⟩ := hend.gives trivial cx1 _ cx2 hcx1 h2 hS2
    cases i with
    | zero =>
      cases hrow
      have hpassing : ∀ m ∈ cx.out ++ ms ++ ms', Passing S dyn strict targets m := by
        intro m hm
        rcases List.mem_append.mp hm with hm | hm
        · exact (List.mem_append.mp hm).elim (hout m) fun hm => (hms m hm).passing targets
        · exact ⟨(hms' m hm).scope, (hms' m hm).passes, (hms' m hm).body.mono hleads id id⟩
      rw [hout2, hout1]
      refine ⟨fun _ => ⟨⟨_, last, rfl, fun m hm => (hpassing m hm).passes, hstop⟩, ?_, fun m hm => ?_, fun m hm => ?_⟩,
        fun h => absurd hb h⟩
      · rw [if_pos rfl, List.append_assoc, List.append_assoc]
        exact List.prefix_append _ _
      · rcases List.mem_append.mp hm with hm | hm
        · exact (hpassing m hm).scope
        · rw [List.mem_singleton.mp hm]
          exact hlast
      · rcases List.mem_append.mp hm with hm | hm
        · exact (hpassing m hm).body
        · rw [List.mem_singleton.mp hm]
          exact hbody.mono hleads id id
    | succ i =>
      rw [show b + (i + 1) = b + 1 + i by omega]
      have hrest := hx.gives { cx2 with out := [] } _ _ ⟨hcx2.values, hcx2.returnAddress, hcx2.vararg⟩
        (by simp) htail hS i row hrow
      simpa using hrest

/-- Blocks that pass their checks are laid one after the other. -/
theorem lays_selectBlocks (hslots : f.slots.length ≤ S.objects) (hblocks : S.blocks = f.blocks.length)
    (h : ∀ block ∈ blocks, (∀ i ∈ block.insts, f.CheckedInst i) ∧ f.CheckedEnd block.terminator)
    (hleads : ∀ (i : Nat) block, blocks[i]? = some block → b + i ∈ live → ∀ c ∈ block.terminator.successors, targets c)
    (hu : ∀ (i : Nat) block, blocks[i]? = some block → b + i ∈ live → strict → block.unmixed f = true)
    (hroom : ∀ (i : Nat) block, blocks[i]? = some block → b + i ∈ live → ∀ inst ∈ block.insts,
      OverfullCall f inst → Overfull f) :
    Lays f S dyn strict targets live b (selectBlocks f live b blocks) := by
  induction blocks generalizing b with
  | nil => exact .nil b
  | cons block blocks ih =>
    have hnext {i : Nat} (hlive : b + 1 + i ∈ live) : b + (i + 1) ∈ live := by
      rwa [show b + (i + 1) = b + 1 + i by omega]
    have hrest := @ih (b + 1) (fun other hother => h other (by simp [hother]))
      (fun i other hi hlive => hleads (i + 1) other hi (hnext hlive))
      (fun i other hi hlive => hu (i + 1) other hi (hnext hlive))
      fun i other hi hlive => hroom (i + 1) other hi (hnext hlive)
    obtain ⟨hinsts, hend⟩ := h block (by simp)
    rw [selectBlocks]
    split
    · next hb =>
      have hlive : b ∈ live := by simpa using hb
      have hblock : strict → (∀ i ∈ block.insts, i.unmixed f = true) ∧ block.terminator.unmixed f = true := by
        intro hs
        simpa [Ir.Block.unmixed] using hu 0 block rfl hlive hs
      refine .block hlive (.forM fun i hi => ?_) (ends_selectTerminator hend fun hs => (hblock hs).2)
        (hleads 0 block rfl hlive) hrest
      exact selects_selectInst hslots hblocks (hinsts i hi) (fun hs => (hblock hs).1 i hi)
        (hroom 0 block rfl hlive i hi)
    · next hb => exact .skip (by simpa using hb) hrest

theorem length_selectBlocks {rows : List (List Pseudo)} {cx cx' : Context}
    (h : (selectBlocks f live b blocks).run cx = .ok (rows, cx')) : rows.length = blocks.length := by
  induction blocks generalizing b cx rows with
  | nil =>
    cases h
    rfl
  | cons block blocks ih =>
    rw [selectBlocks] at h
    have hrest {x : Select (List Pseudo)} (h : (x >>= fun head => selectBlocks f live (b + 1) blocks >>= fun rows =>
        pure (head :: rows)).run cx = .ok (rows, cx')) : rows.length = blocks.length + 1 := by
      obtain ⟨head, cx1, -, h⟩ := run_bind h
      obtain ⟨tail, cx2, htail, h⟩ := run_bind h
      cases h
      rw [List.length_cons, ih htail]
    split at h
    · exact hrest h
    · exact hrest h

end Blocks

end Selection

def Routine.scope (g : Routine) (plan : FramePlan) : Scope :=
  ⟨g.classes, g.pool.length, plan.objects.length, g.blocks.length⟩

namespace Selection

variable {f : Ir.Function} {sel : Selected} {targets : Ir.BlockId → Prop}

theorem slotPlan_eq_build (f : Ir.Function) :
    slotPlan f = .build (f.slots.map fun s => .addLocal s.size s.align) := by
  rw [slotPlan, FramePlan.build, FramePlan.steps, List.foldl_map]
  rfl

theorem slotPlan_spec (f : Ir.Function) : (slotPlan f).objects.length = f.slots.length ∧
    (slotPlan f).returnAddress = none ∧ (slotPlan f).vararg = none := by
  have hfold (slots : List Ir.StackSlot) (plan : FramePlan) :
      (slots.foldl (fun plan s => (plan.addLocal s.size s.align).2) plan).objects.length =
        plan.objects.length + slots.length ∧
      (slots.foldl (fun plan s => (plan.addLocal s.size s.align).2) plan).returnAddress = plan.returnAddress ∧
      (slots.foldl (fun plan s => (plan.addLocal s.size s.align).2) plan).vararg = plan.vararg := by
    induction slots generalizing plan with
    | nil => exact ⟨rfl, rfl, rfl⟩
    | cons s slots ih =>
      obtain ⟨hlen, hrest⟩ := ih (plan.addLocal s.size s.align).2
      refine ⟨?_, hrest⟩
      rw [List.foldl_cons, hlen]
      simp [FramePlan.addLocal, FramePlan.push]
      omega
  rw [slotPlan]
  simpa using hfold f.slots {}

section Parameters

variable {cx cx' : Context}

private def takeParameters (f : Ir.Function) : Select PUnit := do
  let _ ← legal .formalArguments .i32
  let _ ← planArguments f.paramTypes f.paramTypes.length
  (f.params.zip (f.paramTypes.zip (assignArguments f.paramTypes f.paramTypes.length).locs)).forM fun x =>
    parameter f x.1 x.2.1 x.2.2

/-- Then the frame notes where variadic arguments start. -/
private theorem run_parameters (f : Ir.Function) (cx : Context) : (parameters f).run cx =
    (takeParameters f).run cx >>= fun p => .ok ((), if f.variadic then
      { p.2 with plan := (p.2.plan.setVararg (assignArguments f.paramTypes f.paramTypes.length).stackSize).2 }
      else p.2) := by
  rw [takeParameters, StateT.run_bind, bind_assoc, parameters, StateT.run_bind]
  refine bind_congr fun p => ?_
  rw [StateT.run_bind, StateT.run_bind, bind_assoc]
  cases hplan : planArguments f.paramTypes f.paramTypes.length with
  | error e => rfl
  | ok plan =>
    obtain ⟨rfl, -⟩ := planArguments_eq_ok.mp hplan
    have hlift (plan : ArgPlan) : (liftM (Except.ok plan : Checked ArgPlan) : Select ArgPlan).run p.2 =
        .ok (plan, p.2) := rfl
    rw [hlift, ok_bind, ok_bind, StateT.run_bind]
    refine bind_congr fun q => ?_
    cases f.variadic <;> rfl

variable (hparams : ∀ v ∈ f.params, f.Typed v)
include hparams

private theorem selects_takeParameters {S : Scope} {dyn : Bool} {strict : Prop} :
    Selects f S dyn (Straight S dyn strict) True (fun _ => True) (takeParameters f) :=
  .bind (.lift (grounded_legal _ _)) fun _ => .check (grounded_planArguments .inl) fun _ _ => selects_parameters hparams

theorem grounded_parameters (cx : Context) : Grounded (Overfull f) ((parameters f).run cx) := by
  have htake : Selects f (cx.scope f) false (Straight (cx.scope f) false True) True _ _ :=
    selects_takeParameters hparams
  rw [run_parameters]
  exact (htake.grounded cx).bind fun _ _ => .ok _

/-- Parameters are in scope, and so is the start of variadic arguments. -/
theorem parameters_reached (h : (parameters f).run cx = .ok ((), cx')) :
    (∃ ops, (∀ op ∈ ops, op.IsWhole) ∧ cx'.plan = cx.plan.steps ops) ∧ cx'.routine.name = cx.routine.name ∧
      ∀ S dyn strict, cx.Fine f S → cx'.Leads f S dyn →
        cx'.Fine f S ∧ ∃ ms, cx'.out = cx.out ++ ms ∧ ∀ m ∈ ms, Straight S dyn strict m := by
  rw [run_parameters] at h
  obtain ⟨⟨_, cx1⟩, htaken, h⟩ := bind_eq_ok.mp h
  cases h
  have htake {S : Scope} {dyn : Bool} {strict : Prop} :
      Selects f S dyn (Straight S dyn strict) True (fun _ => True) (takeParameters f) := selects_takeParameters hparams
  have hgrown : cx.Grown f cx1 :=
    (htake : Selects f (cx.scope f) false (Straight _ _ True) _ _ _).grows cx () cx1 htaken
  obtain ⟨ops, hops, hplan⟩ := hgrown.plan
  split
  · refine ⟨⟨ops ++ [.setVararg (assignArguments f.paramTypes f.paramTypes.length).stackSize], fun op hop => ?_, ?_⟩,
      hgrown.name, fun S dyn strict hcx hS => ?_⟩
    · rcases List.mem_append.mp hop with hop | hop
      · exact (hops op hop).isWhole
      · rw [List.mem_singleton.mp hop]
        trivial
    · rw [FramePlan.steps_append, ← hplan]
      rfl
    · have hobjects : cx1.plan.objects.length + 1 ≤ S.objects := by
        simpa [Context.scope, FramePlan.setVararg, FramePlan.addIncoming, FramePlan.push] using hS.scope.objects
      have hS1 : cx1.Leads f S dyn :=
        ⟨⟨hS.scope.classes, hS.scope.constants, Nat.le_of_succ_le hobjects, hS.scope.blocks⟩, hS.varSized⟩
      obtain ⟨-, hcx1, hms⟩ := htake.gives trivial cx () cx1 hcx htaken hS1
      refine ⟨⟨hcx1.values, hcx1.returnAddress, fun i hi => ?_⟩, hms⟩
      cases hi
      exact hobjects
  · refine ⟨⟨ops, fun op hop => (hops op hop).isWhole, hplan⟩, hgrown.name, fun S dyn strict hcx hS => ?_⟩
    exact (htake.gives trivial cx () cx1 hcx htaken hS).2

end Parameters

/-- Blocks of a function that passed its checks, laid within any scope that has its stack slots and blocks. -/
private theorem lays_blocks (hv : f.Verified) (hlive : ∀ b ∈ reachable f, ∀ c ∈ successorsOf f b, targets c)
    {S : Scope} (dyn : Bool) (hslots : f.slots.length ≤ S.objects) (hblocks : S.blocks = f.blocks.length) :
    Lays f S dyn (f.unmixed = true) targets (reachable f) 0 (selectBlocks f (reachable f) 0 f.blocks) := by
  refine lays_selectBlocks hslots hblocks (fun block hb => ⟨hv.insts block hb, hv.ends block hb⟩)
    (fun i block hi hreach => ?_) (fun i block hi hreach hu => ?_) fun i block hi hreach inst hinst hfull => ?_
  · have hsucc := hlive _ hreach
    rwa [successorsOf, Nat.zero_add, hi] at hsucc
  · rw [Nat.zero_add] at hreach
    simpa [hi] using List.all_eq_true.mp hu i hreach
  · rw [Nat.zero_add] at hreach
    exact .inr ⟨i, hreach, block, hi, inst, hinst, hfull⟩

/-- Selection for a function that passed its checks does not fail for a reference, and aborts only for arguments that
cannot be counted. -/
theorem grounded_selectOperations (h : f.verify = .ok ()) : Grounded (Overfull f) f.selectOperations := by
  have hv := Ir.Function.verified_of_verify h
  have hlays := lays_blocks (S := ⟨[], 0, f.slots.length, f.blocks.length⟩) hv (fun _ _ _ _ => trivial) false
    (Nat.le_refl _) rfl
  rw [Ir.Function.selectOperations, h, ok_bind]
  refine .bind ?_ fun p _ => .ok _
  rw [selectBody, StateT.run_bind]
  exact (grounded_parameters hv.params _).bind fun p _ => hlays.grounded p.2

section Counted

variable {live : List Ir.BlockId} {b : Nat} {blocks : List Ir.Block} {cx cx' : Context}

private theorem parameters_counted (h : (parameters f).run cx = .ok ((), cx')) :
    (assignArguments f.paramTypes f.paramTypes.length).stackSize < 4294967296 := by
  obtain ⟨_, -, h⟩ := run_check h
  obtain ⟨_, hplan, -⟩ := run_check h
  exact (planArguments_eq_ok.mp hplan).2

private theorem selectInst_counted {i : Ir.Inst} (h : (selectInst f i).run cx = .ok ((), cx')) : ¬OverfullCall f i := by
  rintro ⟨callee, args, numFixed, results, types, rfl, htypes, hfull⟩
  obtain ⟨_, -, h⟩ := run_check (x := legal .call .ptr) h
  obtain ⟨_, htypes', h⟩ := run_check h
  obtain rfl := Except.ok.inj (htypes.symm.trans htypes')
  obtain ⟨_, hplan, h⟩ := run_check h
  obtain ⟨rfl, -⟩ := planArguments_eq_ok.mp hplan
  obtain ⟨_, hsize, -⟩ := run_check h
  exact absurd hfull (Nat.not_le.mpr (lt_of_unsigned32 hsize))

private theorem forM_counted {insts : List Ir.Inst} (h : (insts.forM (selectInst f)).run cx = .ok ((), cx')) :
    ∀ i ∈ insts, ¬OverfullCall f i := by
  induction insts generalizing cx with
  | nil => simp
  | cons i insts ih =>
    obtain ⟨_, cx1, hi, h⟩ := run_bind h
    exact List.forall_mem_cons.mpr ⟨selectInst_counted hi, ih h⟩

private theorem selectBlocks_counted {rows : List (List Pseudo)}
    (h : (selectBlocks f live b blocks).run cx = .ok (rows, cx')) :
    ∀ (i : Nat) block, blocks[i]? = some block → b + i ∈ live → ∀ inst ∈ block.insts, ¬OverfullCall f inst := by
  induction blocks generalizing b cx cx' rows with
  | nil => simp
  | cons head rest ih =>
    rw [selectBlocks] at h
    have hrest {x : Select (List Pseudo)} (h : (x >>= fun head => selectBlocks f live (b + 1) rest >>= fun rows =>
        pure (head :: rows)).run cx = .ok (rows, cx')) (i : Nat) (block : Ir.Block) (hi : rest[i]? = some block)
        (hlive : b + (i + 1) ∈ live) : ∀ inst ∈ block.insts, ¬OverfullCall f inst := by
      obtain ⟨_, cx1, -, h⟩ := run_bind h
      obtain ⟨_, cx2, htail, -⟩ := run_bind h
      exact ih htail i block hi (by rwa [show b + 1 + i = b + (i + 1) by omega])
    intro i block hi hlive
    cases i with
    | zero =>
      cases hi
      rw [if_pos (List.contains_iff_mem.mpr (show b ∈ live from hlive))] at h
      obtain ⟨_, cx1, hblock, -⟩ := run_bind h
      obtain ⟨_, cx2, hinsts, -⟩ := run_bind hblock
      exact forM_counted hinsts
    | succ i =>
      split at h
      · exact hrest h i block hi hlive
      · exact hrest h i block hi hlive

/-- The arguments of a function with operations can be counted. -/
theorem selectOperations_counted (h : f.selectOperations = .ok sel) : ¬Overfull f := by
  obtain ⟨_, -, h⟩ := bind_eq_ok.mp h
  obtain ⟨⟨rows, cx⟩, hbody, -⟩ := bind_eq_ok.mp h
  obtain ⟨_, cx1, hparams, hblocks⟩ := run_bind hbody
  rintro (hfull | ⟨b, hb, block, hblock, i, hi, hfull⟩)
  · exact absurd hfull (Nat.not_le.mpr (parameters_counted hparams))
  · exact selectBlocks_counted hblocks b block hblock (by rwa [Nat.zero_add]) i hi hfull

end Counted

def start (f : Ir.Function) : Context := { routine := .empty f.name 0, plan := slotPlan f }

/-- Parameters are taken first, then blocks are laid: those that are kept end, stay in scope, leave the frame alone and
lead where they may; the others are empty. -/
theorem selectOperations_lays (hlive : ∀ b ∈ reachable f, ∀ c ∈ successorsOf f b, targets c)
    (h : f.selectOperations = .ok sel) :
    ∃ cx1, (parameters f).run (start f) = .ok ((), cx1) ∧ cx1.plan.Reaches sel.plan ∧
      sel.routine.name = cx1.routine.name ∧ sel.routine.blocks.length = f.blocks.length ∧
      ∀ (b : Nat) block, sel.routine.blocks[b]? = some block →
        (b ∈ reachable f → LaidBlock (sel.routine.scope sel.plan) sel.plan.hasVarSized (f.unmixed = true) targets
          (if b = 0 then cx1.out else []) block) ∧ (b ∉ reachable f → block = []) := by
  obtain ⟨_, hverify, h⟩ := bind_eq_ok.mp h
  have hv := Ir.Function.verified_of_verify hverify
  obtain ⟨⟨rows, cx⟩, hbody, h⟩ := bind_eq_ok.mp h
  cases h
  obtain ⟨_, cx1, hparams, hblocks⟩ := run_bind hbody
  have hlen := length_selectBlocks hblocks
  obtain ⟨hslots, hreturn, hvararg⟩ := slotPlan_spec f
  -- the blocks only add to the scope, whatever it is
  have hgrown : cx1.Grown f cx :=
    (lays_blocks (S := ⟨[], 0, f.slots.length, f.blocks.length⟩) hv hlive false (Nat.le_refl _) rfl).grows _ _ _ hblocks
  obtain ⟨⟨ops, -, hplan⟩, -, htaken⟩ := parameters_reached hv.params hparams
  have hobjects : f.slots.length ≤ (cx.scope f).objects := by
    have hgrows := FramePlan.steps_grows (slotPlan f) ops
    rw [← hplan] at hgrows
    rw [← hslots]
    exact (hgrows.trans hgrown.plan.grows).length_objects
  have hend : cx.Leads f (cx.scope f) cx.plan.hasVarSized := ⟨.refl _, id⟩
  obtain ⟨hcx1, ms, hout, hms⟩ := htaken (cx.scope f) cx.plan.hasVarSized (f.unmixed = true)
    ⟨fun v r hr => (by cases hr), fun i hi => (by rw [hreturn] at hi; cases hi),
      fun i hi => (by rw [hvararg] at hi; cases hi)⟩ (hgrown.leads hend)
  have hgives := (lays_blocks hv hlive cx.plan.hasVarSized hobjects rfl).gives cx1 rows cx hcx1 (fun m hm => ?_) hblocks
    hend
  · refine ⟨cx1, hparams, hgrown.plan, hgrown.name, hlen, fun b block hb => ?_⟩
    have hscope : Routine.scope { cx.routine with blocks := rows } cx.plan = cx.scope f := by
      rw [Routine.scope, Context.scope, hlen]
    have hlaid := hgives b block hb
    rw [Nat.zero_add] at hlaid
    rw [hscope]
    exact hlaid
  · rw [hout] at hm
    exact (hms m hm).passing targets

/-- The blocks that are kept end, the others are empty, and all operations stay in scope; none mixes the banks if the
function does not. -/
theorem selectOperations_inScope (h : f.selectOperations = .ok sel) :
    sel.routine.blocks.length = f.blocks.length ∧ ∀ (b : Nat) block, sel.routine.blocks[b]? = some block →
      (b ∈ reachable f → Ended block) ∧ (b ∉ reachable f → block = []) ∧
        ∀ m ∈ block, m.InScope (sel.routine.scope sel.plan) (f.unmixed = true) := by
  obtain ⟨_, -, -, -, hlen, hblocks⟩ := selectOperations_lays (fun _ _ _ _ => trivial) h
  refine ⟨hlen, fun b block hb => ?_⟩
  obtain ⟨hlaid, hempty⟩ := hblocks b block hb
  refine ⟨fun hreach => (hlaid hreach).ended, hempty, fun m hm => ?_⟩
  by_cases hreach : b ∈ reachable f
  · exact (hlaid hreach).scope m hm
  · rw [hempty hreach] at hm
    cases hm

/-- The operations selected for a function leave the frame alone, and lead where its kept blocks lead. -/
theorem selectOperations_body (hlive : ∀ b ∈ reachable f, ∀ c ∈ successorsOf f b, targets c)
    (h : f.selectOperations = .ok sel) :
    ∀ block ∈ sel.routine.blocks, ∀ m ∈ block, BodyOp targets true sel.plan.hasVarSized m := by
  obtain ⟨_, -, -, -, -, hblocks⟩ := selectOperations_lays hlive h
  intro block hblock m hm
  obtain ⟨b, hb⟩ := List.mem_iff_getElem?.mp hblock
  obtain ⟨hlaid, hempty⟩ := hblocks b block hb
  by_cases hreach : b ∈ reachable f
  · exact (hlaid hreach).body m hm
  · rw [hempty hreach] at hm
    cases hm

/-- The operations selected for a function whose kept blocks do not lead back to the entry. -/
theorem selectOperations_bodied (hentry : ∀ b ∈ reachable f, 0 ∉ successorsOf f b)
    (h : f.selectOperations = .ok sel) : sel.routine.Bodied f.argRegs true sel.plan.hasVarSized := by
  have hlive : ∀ b ∈ reachable f, ∀ c ∈ successorsOf f b, c ≠ 0 := fun b hb c hc h0 => hentry b hb (h0 ▸ hc)
  refine ⟨selectOperations_body hlive h, ?_⟩
  obtain ⟨_, hverify, -⟩ := bind_eq_ok.mp h
  obtain ⟨cx1, hparams, -, -, hlen, hblocks⟩ := selectOperations_lays hlive h
  have hpos : 0 < sel.routine.blocks.length := by
    rw [hlen]
    exact List.length_pos_iff.mpr (Ir.Function.verified_of_verify hverify).blocks
  have hfirst := List.getElem?_eq_getElem hpos
  obtain ⟨own, hown⟩ := ((hblocks 0 _ hfirst).1 (zero_mem_reachable f)).opens
  obtain ⟨pre, hpre, hmoves, -⟩ := parameters_moves (fun v r hr => by cases hr) hparams
  refine ⟨pre, own, ?_, hmoves⟩
  rw [hfirst, ← hown, if_pos rfl, hpre]
  rfl

/-- The frame of a function is built by the steps of lowering, and the function keeps its name. -/
theorem selectOperations_built (h : f.selectOperations = .ok sel) : sel.routine.name = f.name ∧
    ∃ ops, (∀ op ∈ ops, op.IsWhole) ∧ sel.plan = .build ops := by
  obtain ⟨_, hverify, -⟩ := bind_eq_ok.mp h
  obtain ⟨cx1, hparams, hreach, hname, -⟩ := selectOperations_lays (fun _ _ _ _ => trivial) h
  obtain ⟨⟨ops, hops, hplan⟩, hname1, -⟩ := parameters_reached (Ir.Function.verified_of_verify hverify).params hparams
  obtain ⟨ops', hops', hplan'⟩ := hreach
  refine ⟨hname.trans hname1, f.slots.map (fun s => .addLocal s.size s.align) ++ (ops ++ ops'), fun op hop => ?_, ?_⟩
  · simp only [List.mem_append, List.mem_map] at hop
    obtain ⟨s, -, rfl⟩ | hop | hop := hop
    · trivial
    · exact hops op hop
    · exact (hops' op hop).isWhole
  · rw [FramePlan.build_append, ← slotPlan_eq_build, FramePlan.steps_append, hplan', hplan]
    rfl

end Selection

end DirectPage
