import DirectPage.Proofs.AddressRun

/-! The operations that put arguments in their places and take parameters from them. -/
namespace DirectPage

namespace Pseudo

def StoresArg (ty : Ir.Ty) (src : Reg) : Pseudo → Prop
  | .store r .word _ _ => r = src ∧ ty.precision? = none
  | .fstore r prec _ => r = src ∧ ty.precision? = some prec
  | _ => False

def LoadsArg (ty : Ir.Ty) (dst : Reg) : Pseudo → Prop
  | .load r .word .zero _ _ => r = dst ∧ ty.precision? = none
  | .fload r prec _ => r = dst ∧ ty.precision? = some prec
  | _ => False

end Pseudo

theorem Ir.Ty.precision?_of_not_isFloat {ty : Ir.Ty} (h : ¬ty.isFloat = true) : ty.precision? = none := by
  cases ty with
  | f32 | f64 => exact absurd rfl h
  | _ => rfl

def stackArgument (sp : Word) (offset : Nat) : Word := sp + BitVec.ofNat 32 (returnAddressSize + offset)

namespace Selection

variable {f : Ir.Function} {cx cx' cx'' : Context}

structure Appended (ops : List Pseudo) (cx cx' : Context) : Prop where
  out : cx'.out = cx.out ++ ops
  values : ∀ v r, cx.values.lookup v = some r → cx'.values.lookup v = some r

variable {ops' : List Pseudo} {loc : ArgLoc} {callee : Ir.Callee} {plan : FramePlan} {v arg : Ir.Value}
  {o : Option (Register × Reg)} {inRegs : List (Register × Reg)} {xs : List (Ir.Value × Ir.Ty × ArgLoc)}

theorem Appended.trans {ops : List Pseudo} (h : Appended ops cx cx') (h' : Appended ops' cx' cx'') :
    Appended (ops ++ ops') cx cx'' :=
  ⟨by rw [h'.out, h.out, List.append_assoc], fun v r hr => h'.values v r (h.values v r hr)⟩

theorem Appended.refl (cx : Context) : Appended [] cx cx := ⟨by simp, fun _ _ => id⟩

theorem emit_appended {m : Pseudo} {u : PUnit} (h : (emit m).run cx = .ok (u, cx')) : Appended [m] cx cx' := by
  cases h
  exact ⟨rfl, fun _ _ => id⟩

theorem reg_appended {r : Reg} (h : (reg f v).run cx = .ok (r, cx')) :
    Appended [] cx cx' ∧ cx'.values.lookup v = some r ∧ cx'.plan = cx.plan := by
  obtain ⟨_, _, hget, h⟩ := run_bind h
  cases hget
  split at h
  · next hr =>
    cases h
    exact ⟨.refl _, hr, rfl⟩
  · next hnone =>
    obtain ⟨ty, -, h⟩ := run_check h
    obtain ⟨t, cx1, ht, h⟩ := run_bind h
    cases ht
    cases h
    exact ⟨⟨by simp, fun u q hq => lookup_cons_of_none hnone hq⟩, List.lookup_cons_self, rfl⟩

inductive Puts (r : Reg) (ty : Ir.Ty) : ArgLoc → Option (Register × Reg) → List Pseudo → Prop
  | inReg (q : Register) : Puts r ty (.reg q) (some (q, r)) []
  | word (offset size : Nat) : ty.precision? = none →
      Puts r ty (.stack offset size) none [.store r .word .sp (BitVec.ofNat 32 (returnAddressSize + offset))]
  | float (offset size : Nat) (addr : Reg) (prec : Precision) : ty.precision? = some prec →
      Puts r ty (.stack offset size) none
        [.spAddr addr (BitVec.ofNat 32 (returnAddressSize + offset)), .fstore r prec (.reg addr)]

theorem argument_code {ty : Ir.Ty} (h : (argument f arg ty loc).run cx = .ok (o, cx')) :
    ∃ r ops, Appended ops cx cx' ∧ cx'.values.lookup arg = some r ∧ Puts r ty loc o ops := by
  obtain ⟨r, cx1, hr, h⟩ := run_bind h
  obtain ⟨happ, hknown, -⟩ := reg_appended hr
  cases loc with
  | reg q =>
    cases h
    exact ⟨r, [], happ, hknown, .inReg q⟩
  | stack offset size =>
    dsimp only at h
    split at h
    · obtain ⟨prec, cx2, hformat, h⟩ := run_bind h
      obtain ⟨hprec, rfl⟩ := run_lift hformat
      cases h
      refine ⟨r, _, happ.trans ⟨List.append_assoc _ [_] [_], fun _ _ => id⟩, hknown, ?_⟩
      exact .float offset size _ prec (orFail_eq_ok.mp hprec)
    · next hint =>
      cases h
      refine ⟨r, _, happ.trans ⟨rfl, fun _ _ => id⟩, hknown, ?_⟩
      exact .word offset size (Ir.Ty.precision?_of_not_isFloat hint)

theorem Puts.keepsSp {r : Reg} {ty : Ir.Ty} {ops : List Pseudo} (h : Puts r ty loc o ops) : ∀ m ∈ ops, m.KeepsSp := by
  cases h with
  | inReg q => simp
  | word offset size hty =>
    intro m hm
    obtain rfl := List.mem_singleton.mp hm
    exact fun _ _ => rfl
  | float offset size addr prec hty =>
    intro m hm
    rcases List.mem_pair.mp hm with rfl | rfl <;> exact fun _ _ => rfl

def Passed (cx : Context) (inRegs : List (Register × Reg)) (ops : List Pseudo) (arg : Ir.Value) (ty : Ir.Ty)
    (loc : ArgLoc) : Prop :=
  ∃ r o own, cx.values.lookup arg = some r ∧ Puts r ty loc o own ∧ own <:+: ops ∧ ∀ p, o = some p → p ∈ inRegs

theorem Passed.later {ops : List Pseudo} {ty : Ir.Ty} (h : Passed cx inRegs ops arg ty loc)
    (happ : Appended ops' cx cx') : Passed cx' inRegs ops arg ty loc := by
  obtain ⟨r, o, own, hknown, hrest⟩ := h
  exact ⟨r, o, own, happ.values _ _ hknown, hrest⟩

theorem arguments_code {acc : List (Register × Reg)}
    (h : (List.filterMapM.loop (fun x => argument f x.1 x.2.1 x.2.2) xs acc).run cx = .ok (inRegs, cx')) :
    (∀ p ∈ acc, p ∈ inRegs) ∧ ∃ ops, Appended ops cx cx' ∧ (∀ m ∈ ops, m.KeepsSp) ∧
      ∀ x ∈ xs, Passed cx' inRegs ops x.1 x.2.1 x.2.2 := by
  induction xs generalizing cx acc with
  | nil =>
    cases h
    exact ⟨fun p hp => List.mem_reverse.mpr hp, [], .refl _, by simp, by simp⟩
  | cons x xs ih =>
    obtain ⟨o, cx1, hx, h⟩ := run_bind h
    obtain ⟨r, own, happ, hknown, hputs⟩ := argument_code hx
    obtain ⟨hnoted, ops, happ', hkeep, hall⟩ : (∀ p ∈ o.toList ++ acc, p ∈ inRegs) ∧ _ := by
      cases o with
      | none => exact ih h
      | some p => exact ih h
    refine ⟨fun p hp => hnoted p (List.mem_append_right _ hp), own ++ ops, happ.trans happ', fun m hm => ?_,
      fun y hy => ?_⟩
    · exact (List.mem_append.mp hm).elim (hputs.keepsSp m) (hkeep m)
    · rcases List.mem_cons.mp hy with rfl | hy
      · have hin : own <:+: own ++ ops := (List.prefix_append own ops).isInfix
        refine ⟨r, o, own, happ'.values _ _ hknown, hputs, hin, fun p hp => hnoted p ?_⟩
        rw [hp]
        exact List.mem_cons_self
      · obtain ⟨r', o', own', hknown', hputs', hin, hnoted'⟩ := hall y hy
        exact ⟨r', o', own', hknown', hputs', hin.trans (List.suffix_append own ops).isInfix, hnoted'⟩

theorem forM_copy_appended {ps : List (Register × Reg)} {u : PUnit}
    (h : (ps.forM fun p => emit (.copy (.phys p.1) p.2)).run cx = .ok (u, cx')) :
    Appended (ps.map fun p => .copy (.phys p.1) p.2) cx cx' := by
  induction ps generalizing cx with
  | nil =>
    cases h
    exact .refl _
  | cons p ps ih =>
    obtain ⟨_, cx1, hp, h⟩ := run_bind h
    exact (emit_appended hp).trans (ih h)

theorem forM_result_appended {ps : List (Ir.Value × Register)} {u : PUnit}
    (h : (ps.forM fun p => do emit (.copy (← reg f p.1) (.phys p.2))).run cx = .ok (u, cx')) :
    ∃ ops, Appended ops cx cx' := by
  induction ps generalizing cx with
  | nil =>
    cases h
    exact ⟨[], .refl _⟩
  | cons p ps ih =>
    obtain ⟨_, cx1, hp, h⟩ := run_bind h
    obtain ⟨r, cx2, hr, hp⟩ := run_bind hp
    obtain ⟨happ, -⟩ := reg_appended hr
    obtain ⟨ops, hops⟩ := ih h
    exact ⟨_, happ.trans ((emit_appended hp).trans hops)⟩

theorem callTarget_appended {target : CallTarget} (h : (callTarget f callee).run cx = .ok (target, cx')) :
    Appended [] cx cx' := by
  cases callee with
  | direct name =>
    cases h
    exact .refl _
  | indirect v =>
    obtain ⟨r, cx1, hr, h⟩ := run_bind h
    cases h
    exact (reg_appended hr).1

def callSetup (size : Nat) (ops : List Pseudo) (inRegs : List (Register × Reg)) : List Pseudo :=
  Pseudo.callStackDown size :: ops ++ inRegs.map fun p => Pseudo.copy (.phys p.1) p.2

theorem call_code {args : List Ir.Value} {numFixed : Option Nat} {results : List Ir.Value}
    {types : List Ir.Ty} (ht : typesOf f args = .ok types)
    (h : (call f callee args numFixed results).run cx = .ok ((), cx')) :
    ∃ size ops inRegs target after,
      cx'.out = cx.out ++ (callSetup size ops inRegs ++ .call target (inRegs.map (·.1)) callClobbered :: after) ∧
      (∀ m ∈ ops, m.KeepsSp) ∧
      ∀ x ∈ args.zip (types.zip (assignArguments types (numFixed.getD args.length)).locs),
        Passed cx' inRegs ops x.1 x.2.1 x.2.2 := by
  obtain ⟨_, -, h⟩ := run_check h
  obtain ⟨types', htypes', h⟩ := run_check h
  obtain rfl := Except.ok.inj (ht.symm.trans htypes')
  obtain ⟨_, hplaces, h⟩ := run_check h
  obtain ⟨rfl, -⟩ := planArguments_eq_ok.mp hplaces
  obtain ⟨_, -, h⟩ := run_check h
  obtain ⟨_, cx1, hplan, h⟩ := run_bind h
  have hnoted : Appended [] cx cx1 := by
    cases hplan
    exact ⟨by simp, fun _ _ => id⟩
  obtain ⟨target, cx2, htarget, h⟩ := run_bind h
  obtain ⟨_, cx3, hdown, h⟩ := run_bind h
  obtain ⟨inRegs, cx4, hargs, h⟩ := run_bind h
  obtain ⟨-, ops, happ, hkeep, hall⟩ := arguments_code hargs
  obtain ⟨_, cx5, hcopies, h⟩ := run_bind h
  obtain ⟨_, cx6, hcall, h⟩ := run_bind h
  obtain ⟨_, cx7, hup, h⟩ := run_bind h
  obtain ⟨_, -, h⟩ := run_check h
  obtain ⟨_, -, h⟩ := run_check h
  obtain ⟨after, hafter⟩ := forM_result_appended h
  have hcopied := forM_copy_appended hcopies
  have hrest := (emit_appended hcall).trans ((emit_appended hup).trans hafter)
  have hput := (emit_appended hdown).trans (happ.trans hcopied)
  have hsetup := hnoted.trans ((callTarget_appended htarget).trans hput)
  refine ⟨_, ops, inRegs, target, _, (hsetup.trans hrest).out, hkeep, fun x hx => ?_⟩
  exact (hall x hx).later (hcopied.trans hrest)

inductive Finds (plan : FramePlan) (r : Reg) (ty : Ir.Ty) : ArgLoc → List Pseudo → Prop
  | inReg (q : Register) : Finds plan r ty (.reg q) [.copy r (.phys q)]
  | word (offset size i : Nat) : plan.objects[i]? = some (.incoming offset size) → ty.precision? = none →
      Finds plan r ty (.stack offset size) [.load r .word .zero (.frame i) 0#32]
  | float (offset size i : Nat) (addr : Reg) (prec : Precision) : plan.objects[i]? = some (.incoming offset size) →
      ty.precision? = some prec →
      Finds plan r ty (.stack offset size) [.frameAddr addr i 0#32, .fload r prec (.reg addr)]

theorem Finds.grow {plan' : FramePlan} {r : Reg} {ty : Ir.Ty} {ops : List Pseudo}
    (h : Finds plan r ty loc ops) (hgrows : plan.Grows plan') : Finds plan' r ty loc ops := by
  cases h with
  | inReg q => exact .inReg q
  | word offset size i hi hty => exact .word offset size i (hgrows.object hi) hty
  | float offset size i addr prec hi hty => exact .float offset size i addr prec (hgrows.object hi) hty

theorem parameter_code {param : Ir.Value} {ty : Ir.Ty} {u : PUnit}
    (h : (parameter f param ty loc).run cx = .ok (u, cx')) :
    ∃ r ops, Appended ops cx cx' ∧ cx.plan.Grows cx'.plan ∧ cx'.values.lookup param = some r ∧
      Finds cx'.plan r ty loc ops := by
  obtain ⟨r, cx1, hr, h⟩ := run_bind h
  obtain ⟨happ, hknown, hplan⟩ := reg_appended hr
  rw [← hplan]
  cases loc with
  | reg q =>
    cases h
    exact ⟨r, _, happ.trans ⟨rfl, fun _ _ => id⟩, .refl _, hknown, .inReg q⟩
  | stack offset size =>
    obtain ⟨i, cx2, hi, h⟩ := run_bind h
    cases hi
    have hobject : (cx1.plan.objects ++ [.incoming offset size])[cx1.plan.objects.length]? =
        some (.incoming offset size) := List.getElem?_concat_length
    split at h
    · obtain ⟨prec, cx3, hformat, h⟩ := run_bind h
      obtain ⟨hprec, rfl⟩ := run_lift hformat
      cases h
      refine ⟨r, _, happ.trans ⟨List.append_assoc _ [_] [_], fun _ _ => id⟩, .push _ _, hknown, ?_⟩
      exact .float offset size _ _ prec hobject (orFail_eq_ok.mp hprec)
    · next hint =>
      cases h
      refine ⟨r, _, happ.trans ⟨rfl, fun _ _ => id⟩, .push _ _, hknown, ?_⟩
      exact .word offset size _ hobject (Ir.Ty.precision?_of_not_isFloat hint)

def Taken (cx : Context) (ops : List Pseudo) (param : Ir.Value) (ty : Ir.Ty) (loc : ArgLoc) : Prop :=
  ∃ r own, cx.values.lookup param = some r ∧ Finds cx.plan r ty loc own ∧ own <:+: ops

theorem forM_parameter_code {u : PUnit} (h : (xs.forM fun x => parameter f x.1 x.2.1 x.2.2).run cx = .ok (u, cx')) :
    ∃ ops, Appended ops cx cx' ∧ cx.plan.Grows cx'.plan ∧ ∀ x ∈ xs, Taken cx' ops x.1 x.2.1 x.2.2 := by
  induction xs generalizing cx with
  | nil =>
    cases h
    exact ⟨[], .refl _, .refl _, by simp⟩
  | cons x xs ih =>
    obtain ⟨_, cx1, hx, h⟩ := run_bind h
    obtain ⟨r, own, happ, hgrows, hknown, hfinds⟩ := parameter_code hx
    obtain ⟨ops, happ', hgrows', hall⟩ := ih h
    refine ⟨own ++ ops, happ.trans happ', hgrows.trans hgrows', fun y hy => ?_⟩
    rcases List.mem_cons.mp hy with rfl | hy
    · exact ⟨r, own, happ'.values _ _ hknown, hfinds.grow hgrows', (List.prefix_append own ops).isInfix⟩
    · obtain ⟨r', own', hknown', hfinds', hin⟩ := hall y hy
      exact ⟨r', own', hknown', hfinds', hin.trans (List.suffix_append own ops).isInfix⟩

def ownPlan (f : Ir.Function) : ArgPlan := assignArguments f.paramTypes f.paramTypes.length

theorem parameters_code {u : PUnit} (h : (parameters f).run cx = .ok (u, cx')) :
    (∃ ops, Appended ops cx cx' ∧
      ∀ x ∈ f.params.zip (f.paramTypes.zip (ownPlan f).locs), Taken cx' ops x.1 x.2.1 x.2.2) ∧
      (f.variadic = true → ∃ i, cx'.plan.vararg = some i ∧
        cx'.plan.objects[i]? = some (.incoming (ownPlan f).stackSize 0)) := by
  obtain ⟨_, -, h⟩ := run_check h
  obtain ⟨_, hplan, h⟩ := run_check h
  obtain ⟨rfl, -⟩ := planArguments_eq_ok.mp hplan
  obtain ⟨_, cx2, hps, h⟩ := run_bind h
  obtain ⟨ops, happ, -, hall⟩ := forM_parameter_code hps
  split at h
  · cases h
    refine ⟨⟨ops, ⟨happ.out, happ.values⟩, fun x hx => ?_⟩, fun _ => ⟨_, rfl, List.getElem?_concat_length⟩⟩
    obtain ⟨r, own, hknown, hfinds, hin⟩ := hall x hx
    exact ⟨r, own, hknown, hfinds.grow ⟨⟨[_], rfl⟩, id, id, Nat.le_refl _⟩, hin⟩
  · next hv =>
    cases h
    exact ⟨⟨ops, happ, hall⟩, fun hv' => absurd hv' hv⟩

theorem vaStart_code {list : Ir.Value} {u : PUnit} (h : (vaStart f list).run cx = .ok (u, cx')) :
    ∃ i addr r, cx.plan.vararg = some i ∧ cx'.values.lookup list = some r ∧
      Appended [.frameAddr addr i 0#32, .store addr .word (.reg r) 0#32] cx cx' := by
  obtain ⟨ty, -, h⟩ := run_check h
  obtain ⟨_, -, h⟩ := run_check h
  obtain ⟨_, _, hget, h⟩ := run_bind h
  cases hget
  obtain ⟨i, hi, h⟩ := run_check h
  obtain ⟨addr, cx1, haddr, h⟩ := run_bind h
  obtain ⟨_, cx2, hframe, h⟩ := run_bind h
  obtain ⟨r, cx3, hr, h⟩ := run_bind h
  obtain ⟨happ, hknown, -⟩ := reg_appended hr
  have hstored := emit_appended h
  have htemp : Appended [] cx cx1 := by
    cases haddr
    exact ⟨by simp, fun _ _ => id⟩
  refine ⟨i, addr, r, orFail_eq_ok.mp hi, hstored.values _ _ hknown, ?_⟩
  exact htemp.trans ((emit_appended hframe).trans (happ.trans hstored))

/-! What the operations access. -/

variable {frame : Frame} {s t u : AddressRegs} {r : Reg} {ty : Ir.Ty} {own ops : List Pseudo} {offset size : Nat}

theorem Puts.meets (h : Puts r ty (.stack offset size) o own) (hrun : AddressRun frame own s t) :
    Meets frame own s t fun x m =>
      m.StoresArg ty r ∧ x.accessed? frame m = some (stackArgument s.stack.sp offset) := by
  cases h with
  | word offset size hty => exact ⟨[], _, [], s, rfl, .nil, hrun, ⟨rfl, hty⟩, rfl⟩
  | float offset size addr prec hty =>
    cases hrun with
    | cons hstep hrun =>
      refine ⟨[_], _, [], _, rfl, .cons hstep .nil, hrun, ⟨rfl, hty⟩, ?_⟩
      exact congrArg some (hstep.computed _ _ rfl)

/-- On the way to a call a stack argument is stored where it belongs by the stack pointer at the call. -/
theorem Passed.meets {cx : Context} {bytes : Nat} (h : Passed cx inRegs ops v ty (.stack offset size))
    (hkeep : ∀ m ∈ ops, m.KeepsSp) (hrun : AddressRun frame (callSetup bytes ops inRegs) s u) :
    ∃ r, cx.values.lookup v = some r ∧ Meets frame (callSetup bytes ops inRegs) s u fun x m =>
      m.StoresArg ty r ∧ x.accessed? frame m = some (stackArgument u.stack.sp offset) := by
  obtain ⟨r, o, own, hknown, hputs, ⟨pre, post, hops⟩, -⟩ := h
  refine ⟨r, hknown, ?_⟩
  have hcode : callSetup bytes ops inRegs =
      .callStackDown bytes :: pre ++ own ++ (post ++ inRegs.map fun p => .copy (.phys p.1) p.2) := by
    rw [callSetup, ← hops]
    simp
  rw [hcode] at hrun ⊢
  obtain ⟨b, hrun, hafter⟩ := hrun.append_inv
  obtain ⟨a, hbefore, hown⟩ := hrun.append_inv
  -- from where the argument is stored to the call the stack pointer stays
  have hsp : u.stack.sp = a.stack.sp := by
    refine StackRun.keepsSp (fun m hm => ?_) (hown.append hafter).stackRun
    rcases List.mem_append.mp hm with hm | hm
    · exact hputs.keepsSp m hm
    rcases List.mem_append.mp hm with hm | hm
    · exact hkeep m (hops ▸ List.mem_append_right _ hm)
    · obtain ⟨p, -, rfl⟩ := List.mem_map.mp hm
      exact fun _ _ => rfl
  rw [hsp]
  exact (hputs.meets hown).within hbefore hafter

theorem Finds.meets (h : Finds plan r ty (.stack offset size) own) (frame : Frame) :
    ∃ i, plan.objects[i]? = some (.incoming offset size) ∧ ∀ s t a, frame.address? s.stack i 0#32 = some a →
      AddressRun frame own s t → Meets frame own s t fun x m => m.LoadsArg ty r ∧ x.accessed? frame m = some a := by
  cases h with
  | word offset size i hi hty =>
    exact ⟨i, hi, fun s t a ha hrun => ⟨[], _, [], s, rfl, .nil, hrun, ⟨rfl, hty⟩, ha⟩⟩
  | float offset size i addr prec hi hty =>
    refine ⟨i, hi, fun s t a ha hrun => ?_⟩
    cases hrun with
    | cons hstep hrun =>
      refine ⟨[_], _, [], _, rfl, .cons hstep .nil, hrun, ⟨rfl, hty⟩, ?_⟩
      exact congrArg some (hstep.computed _ _ (by rw [AddressRegs.computed?, ha]; rfl))

end Selection

end DirectPage
