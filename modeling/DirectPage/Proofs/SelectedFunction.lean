import DirectPage.Proofs.SelectionSemantics

/-! The operations selected for a straight-line integer function: parameters are taken from where the calling
convention puts them, and results are left where it wants them. -/
namespace DirectPage.Selection

open Allocation (Grown)

variable {cx' cx : Context} {k : Nat} {ops : List Pseudo} {types : List Ir.Ty}

theorem Valid.congr (h : Valid cx) (hv : cx'.values = cx.values) (hr : cx'.routine.classes = cx.routine.classes) :
    Valid cx' := by
  refine ⟨fun v r hl => ?_, fun u v r hu hl => h.inj u v r (hv ▸ hu) (hv ▸ hl)⟩
  obtain ⟨k, rfl, hk⟩ := h.virt v r (hv ▸ hl)
  exact ⟨k, rfl, by rwa [Routine.numVRegs, hr]⟩

theorem fits_append {objects : List FrameObject} {n : Nat} {m : Pseudo} (h : m.Fits objects n) (hn : n ≤ k) :
    m.Fits objects k := by
  have h' : m.Fits (objects ++ []) k := h.mono hn
  rwa [List.append_nil] at h'

section Insts

variable {f : Ir.Function} (hw : ∀ ty ∈ f.valueTypes, isWord ty = true) {known results : List Ir.Value}
  {cx' cx : Context} {types : List Ir.Ty}
include hw

theorem selectInsts_spec {insts : List Ir.Inst} (hv : Valid cx) (hi : ∀ i ∈ insts, i.isStraight = true)
    (ha : Ir.Inst.assigns known insts results = true) (h : (insts.forM (selectInst f)).run cx = .ok ((), cx')) :
    ∃ ops known', Steps cx cx' ops ∧ (∀ m ∈ ops, m.Fits cx.plan.objects cx'.routine.numVRegs) ∧
      (∀ v ∈ results, v ∈ known') ∧
      ∀ st env, Holds known cx.values st env →
        Option.Rel (fun env' st' => Holds known' cx'.values st' env') (Ir.Inst.evalAll env insts)
          (Pseudo.evalAll st ops) := by
  induction insts generalizing known cx with
  | nil =>
    cases h
    refine ⟨[], known, .refl hv, by simp, fun v hr => ?_, fun st env hh => .some hh⟩
    simpa using List.all_eq_true.mp ha v hr
  | cons i rest ih =>
    obtain ⟨_, cx1, h1, h⟩ := run_bind h
    simp only [Ir.Inst.assigns, Bool.and_eq_true, List.all_eq_true] at ha
    obtain ⟨ops, hops⟩ := selectInst_spec hw hv (hi i (by simp))
      (fun v hu => by simpa using ha.1 v hu) h1
    obtain ⟨ops', known', hs', hfits', hres, heval⟩ := ih hops.steps.valid (fun j hj => hi j (by simp [hj])) ha.2 h
    refine ⟨ops ++ ops', known', hops.steps.trans hs', fun m hm => ?_, hres, fun st env hh => ?_⟩
    · rcases List.mem_append.mp hm with hm | hm
      · exact fits_append (hops.fits m hm) hs'.grown.numVRegs_le
      · exact hops.steps.plan ▸ hfits' m hm
    · rw [Pseudo.evalAll_append]
      exact rel_bind (hops.computes st env hh) fun env' st' hh' => heval st' env' hh'

theorem copyResults_spec {pairs : List (Ir.Value × Register)} (hv : Valid cx) (hk : ∀ p ∈ pairs, p.1 ∈ known)
    (hr : ∀ p ∈ pairs, p.2 ∈ intArgRegs) (hd : (pairs.map Prod.snd).Nodup)
    (h : (pairs.forM fun (value, r) => do emit (.copy (.phys r) (← reg f value))).run cx = .ok ((), cx')) :
    ∃ ops, Steps cx cx' ops ∧ (∀ m ∈ ops, m.Fits cx.plan.objects cx'.routine.numVRegs) ∧
      ∀ st env, Holds known cx.values st env → ∃ st', Pseudo.evalAll st ops = some st' ∧
        (∀ p ∈ pairs, st'.regs (.phys p.2) = env p.1) ∧
        ∀ r, r ∉ pairs.map Prod.snd → st'.regs (.phys r) = st.regs (.phys r) := by
  induction pairs generalizing cx with
  | nil =>
    cases h
    exact ⟨[], .refl hv, by simp, fun st env hh => ⟨st, rfl, by simp, fun _ _ => rfl⟩⟩
  | cons p rest ih =>
    obtain ⟨value, r⟩ := p
    obtain ⟨_, cx2, h1, h⟩ := run_bind h
    obtain ⟨x, cx1, hx, hemit⟩ := run_bind h1
    obtain ⟨hs1, hx⟩ := reg_spec hw hv hx
    obtain ⟨hs2, hvals, hroutine⟩ := emit_spec hs1.valid hemit
    have hs := hs1.trans hs2
    rw [List.map_cons, List.nodup_cons] at hd
    obtain ⟨ops, hs3, hfits, heval⟩ := ih hs.valid (fun p hp => hk p (by simp [hp])) (fun p hp => hr p (by simp [hp]))
      hd.2 h
    refine ⟨[Pseudo.copy (.phys r) x] ++ ops, hs.trans hs3, fun m hm => ?_, fun st env hh => ?_⟩
    · rcases List.mem_append.mp hm with hm | hm
      · obtain ⟨k, rfl, hlt⟩ := hs.valid.virt value x (by rw [hvals, hx])
        rw [List.mem_singleton.mp hm]
        refine ⟨rfl, fun q hq => ?_, fun q hq => ?_, (fun i hi => by cases hi), fun i hi => by cases hi⟩
        · simp only [Pseudo.regs, List.mem_cons, List.not_mem_nil, or_false] at hq
          rcases hq with rfl | rfl
          · trivial
          · exact Nat.lt_of_lt_of_le hlt hs3.grown.numVRegs_le
        · obtain rfl : q = r := by simpa [Pseudo.regs] using hq
          exact hr (value, q) (by simp)
      · exact hs.plan ▸ hfits m hm
    · have hread : st.regs x = env value := (hh.steps hs1).read (hk (value, r) (by simp)) hx
      have hh2 : Holds known cx2.values (st.set (.phys r) (env value)) env :=
        hvals ▸ (hh.steps hs1).set_phys hs1.valid r
      obtain ⟨st', h1, h2, h3⟩ := heval _ env hh2
      have hfirst : st'.regs (.phys r) = env value := by rw [h3 r hd.1, Store.regs_set_self]
      refine ⟨st', ?_, fun p hp => ?_, fun q hq => ?_⟩
      · rw [Pseudo.evalAll_append, ← h1, ← hread]
        rfl
      · rcases List.mem_cons.mp hp with rfl | hp
        · exact hfirst
        · exact h2 p hp
      · simp only [List.map_cons, List.mem_cons, not_or] at hq
        rw [h3 q hq.2, Store.regs_set_ne]
        exact fun he => hq.1 (Reg.phys.inj he)

omit hw in
private theorem mapM_valueType {vs : List Ir.Value} (h : vs.mapM f.valueType = .ok types) :
    types.length = vs.length ∧ ∀ ty ∈ types, ∃ v, f.valueType v = .ok ty := by
  induction vs generalizing types with
  | nil =>
    cases h
    exact ⟨rfl, by simp⟩
  | cons v vs ih =>
    rw [List.mapM_cons] at h
    obtain ⟨ty, hty, h⟩ := bind_eq_ok.mp h
    obtain ⟨rest, hrest, h⟩ := bind_eq_ok.mp h
    cases h
    obtain ⟨hlen, hall⟩ := ih hrest
    refine ⟨by simp [hlen], fun t ht => ?_⟩
    rcases List.mem_cons.mp ht with rfl | ht
    · exact ⟨v, hty⟩
    · exact hall t ht

omit hw in
private theorem assignReturns_words {regs : List Register} (ht : ∀ ty ∈ types, isWord ty = true)
    (h : assignReturns types = .ok regs) : types.length ≤ 2 ∧ regs = intReturnRegs.take types.length := by
  unfold assignReturns at h
  split at h
  · cases h
    exact ⟨by simp, rfl⟩
  · cases ht .f32 (by simp)
  · cases ht .f64 (by simp)
  · split at h
    · next hc =>
      cases h
      simp only [Bool.and_eq_true, decide_eq_true_eq] at hc
      exact ⟨hc.1, rfl⟩
    · cases h

theorem ret_spec (hv : Valid cx) (hk : ∀ v ∈ results, v ∈ known) (h : (ret f results).run cx = .ok ((), cx')) :
    results.length ≤ 2 ∧ ∃ ops, Steps cx cx' (ops ++ [Pseudo.ret (intReturnRegs.take results.length)]) ∧
      (∀ m ∈ ops, m.Fits cx.plan.objects cx'.routine.numVRegs) ∧
      ∀ st env, Holds known cx.values st env → ∃ st', Pseudo.evalAll st ops = some st' ∧
        ∀ (i : Nat) v r, results[i]? = some v → (intReturnRegs.take results.length)[i]? = some r →
          st'.regs (.phys r) = env v := by
  obtain ⟨_, -, h⟩ := run_check h
  obtain ⟨types, htypes, h⟩ := run_check h
  obtain ⟨regs, hregs, h⟩ := run_check h
  obtain ⟨hlen, hall⟩ := mapM_valueType htypes
  obtain ⟨hle, rfl⟩ := assignReturns_words (fun ty hty => by
    obtain ⟨v, hv⟩ := hall ty hty
    exact isWord_of_valueType hw hv) hregs
  rw [hlen] at hle h
  obtain ⟨_, cx1, hcopies, h⟩ := run_bind h
  have hsnd : ((results.zip (intReturnRegs.take results.length)).map Prod.snd).Nodup := by
    rw [List.map_snd_zip (List.length_take_le _ _)]
    exact (show intReturnRegs.Nodup by decide).take
  have hknown : ∀ p ∈ results.zip (intReturnRegs.take results.length), p.1 ∈ known := fun p hp =>
    hk p.1 (List.of_mem_zip hp).1
  have hargs : ∀ p ∈ results.zip (intReturnRegs.take results.length), p.2 ∈ intArgRegs := fun p hp => by
    have hmem := List.mem_of_mem_take (List.of_mem_zip hp).2
    simp only [intReturnRegs, List.mem_cons, List.not_mem_nil, or_false] at hmem
    rcases hmem with he | he <;> rw [he] <;> decide
  obtain ⟨ops, hs, hfits, heval⟩ := copyResults_spec hw hv hknown hargs hsnd hcopies
  obtain ⟨hs', -, hroutine⟩ := emit_spec hs.valid h
  refine ⟨hle, ops, hs.trans hs', fun m hm => hroutine ▸ hfits m hm, fun st env hh => ?_⟩
  obtain ⟨st', h1, h2, -⟩ := heval st env hh
  refine ⟨st', h1, fun i v r hi hr => h2 (v, r) ?_⟩
  exact List.mem_of_getElem? (i := i) (List.getElem?_zip_eq_some.mpr ⟨hi, hr⟩)

end Insts

structure Takes (cx cx' : Context) (ops : List Pseudo) (more : List FrameObject) : Prop where
  valid : Valid cx'
  out : cx'.out = cx.out ++ ops
  plan : cx'.plan = { cx.plan with objects := cx.plan.objects ++ more }
  grown : Grown cx.routine cx'.routine
  values : ∀ v r, cx.values.lookup v = some r → cx'.values.lookup v = some r

theorem Steps.takes (h : Steps cx cx' ops) : Takes cx cx' ops [] :=
  ⟨h.valid, h.out, by rw [h.plan, List.append_nil], h.grown, h.values⟩

theorem Takes.trans {cx'' : Context} {ops' : List Pseudo} {more more' : List FrameObject} (h : Takes cx cx' ops more)
    (h' : Takes cx' cx'' ops' more') :
    Takes cx cx'' (ops ++ ops') (more ++ more') where
  valid := h'.valid
  out := by rw [h'.out, h.out, List.append_assoc]
  plan := by rw [h'.plan, h.plan, List.append_assoc]
  grown := h.grown.trans h'.grown
  values v r hv := h'.values v r (h.values v r hv)

def argWord (st : Store) (incoming : Nat → Word) : ArgLoc → Word
  | .reg r => st.regs (.phys r)
  | .stack offset _ => incoming offset

def ArgLoc.IsWord : ArgLoc → Prop
  | .reg r => r ∈ intArgRegs
  | .stack _ size => size = wordSize

section Parameters

variable {f : Ir.Function} {cx cx' : Context} (known : List Ir.Value)

def Incoming (objects : List FrameObject) (incoming : Nat → Word) (st : Store) : Prop :=
  ∀ (i : Nat) offset, objects[i]? = some (.incoming offset wordSize) → st.objects i = incoming offset

variable (hw : ∀ ty ∈ f.valueTypes, isWord ty = true)
include hw

theorem parameter_spec {param : Ir.Value} {ty : Ir.Ty} {loc : ArgLoc} (hv : Valid cx) (hty : isWord ty = true)
    (hloc : ArgLoc.IsWord loc) (h : (parameter f param ty loc).run cx = .ok ((), cx')) :
    ∃ ops more, Takes cx cx' ops more ∧ (∀ o ∈ more, ∃ offset, loc = .stack offset wordSize ∧
        o = .incoming offset wordSize) ∧
      (∀ m ∈ ops, m.Fits (cx.plan.objects ++ more) cx'.routine.numVRegs) ∧
      ∀ incoming st env, Holds known cx.values st env → Incoming (cx.plan.objects ++ more) incoming st →
        argWord st incoming loc = env param → ∃ st', Pseudo.evalAll st ops = some st' ∧
          Holds (param :: known) cx'.values st' env ∧ (∀ r, st'.regs (.phys r) = st.regs (.phys r)) ∧
          st'.objects = st.objects := by
  obtain ⟨d, cx1, hd, h⟩ := run_bind h
  obtain ⟨hs, hd⟩ := reg_spec hw hv hd
  obtain ⟨k, rfl, hk⟩ := hs.valid.virt param d hd
  have hset {st : Store} {env : Ir.Env} (hh : Holds known cx.values st env) :
      Holds (param :: known) cx1.values (st.set (.virt k) (env param)) env := by
    have := (hh.steps hs).assign (w := env param) hs.valid hd
    rwa [show env.set param (env param) = env from funext fun u => by
      by_cases hu : u = param
      · rw [hu, Ir.Env.set_self]
      · rw [Ir.Env.set_ne _ hu]] at this
  cases loc with
  | reg q =>
    obtain ⟨_, cx2, hmod, h⟩ := run_bind h
    cases hmod
    have hnote : Takes cx1 { cx1 with routine.liveIns := cx1.routine.liveIns ++ [q] } [] [] :=
      ⟨hs.valid.congr rfl rfl, by simp, by simp, ⟨rfl, rfl, 0, by simp⟩, fun _ _ h => h⟩
    obtain ⟨hs2, hvals, hroutine⟩ := emit_spec hnote.valid h
    refine ⟨_, _, (hs.takes.trans hnote).trans hs2.takes, by simp, fun m hm => ?_, fun incoming st env hh _ harg => ?_⟩
    · obtain rfl : m = .copy (.virt k) (.phys q) := by simpa using hm
      refine ⟨rfl, fun r hr => ?_, fun r hr => ?_, (fun i hi => by cases hi), fun i hi => by cases hi⟩
      · simp only [Pseudo.regs, List.mem_cons, List.not_mem_nil, or_false] at hr
        rcases hr with rfl | rfl
        · rw [hroutine]
          exact hk
        · trivial
      · obtain rfl : r = q := by simpa [Pseudo.regs] using hr
        exact hloc
    · refine ⟨st.set (.virt k) (env param), ?_, hvals ▸ hset hh, fun r => Store.regs_set_ne _ (by simp) _, rfl⟩
      rw [← harg]
      rfl
  | stack offset size =>
    obtain rfl : size = wordSize := hloc
    obtain ⟨index, cx2, hplan, h⟩ := run_bind h
    cases hplan
    have hnote : Takes cx1 { cx1 with plan.objects := cx1.plan.objects ++ [.incoming offset wordSize] } []
        [.incoming offset wordSize] :=
      ⟨hs.valid.congr rfl rfl, by simp, rfl, .refl _, fun _ _ h => h⟩
    rw [if_neg (by simp [isFloat_word hty])] at h
    obtain ⟨hs2, hvals, hroutine⟩ := emit_spec hnote.valid h
    have hget : (cx.plan.objects ++ [.incoming offset wordSize])[cx1.plan.objects.length]? =
        some (.incoming offset wordSize) := by simp [hs.plan]
    refine ⟨_, _, (hs.takes.trans hnote).trans hs2.takes, ?_, fun m hm => ?_, fun incoming st env hh hin harg => ?_⟩
    · intro o ho
      exact ⟨offset, rfl, by simpa using ho⟩
    · obtain rfl : m = .load (.virt k) .word .zero (.frame cx1.plan.objects.length) 0#32 := by simpa using hm
      refine ⟨rfl, fun r hr => ?_, fun r hr => ?_, fun i hi => ?_, fun i hi => by cases hi⟩
      · obtain rfl : r = .virt k := by simpa [Pseudo.regs, MemBase.regs] using hr
        rw [hroutine]
        exact hk
      · simp [Pseudo.regs, MemBase.regs] at hr
      · cases hi
        exact ⟨_, by simpa using hget, rfl⟩
    · refine ⟨st.set (.virt k) (env param), ?_, hvals ▸ hset hh, fun r => Store.regs_set_ne _ (by simp) _, rfl⟩
      have hword : st.objects cx1.plan.objects.length = env param :=
        (hin _ offset (by simpa using hget)).trans harg
      rw [← hword]
      rfl

theorem takeParameters_spec {items : List (Ir.Value × Ir.Ty × ArgLoc)} (hv : Valid cx)
    (hty : ∀ it ∈ items, isWord it.2.1 = true) (hloc : ∀ it ∈ items, ArgLoc.IsWord it.2.2)
    (h : (items.forM fun (param, ty, loc) => parameter f param ty loc).run cx = .ok ((), cx')) :
    ∃ ops more, Takes cx cx' ops more ∧
      (∀ o ∈ more, ∃ it ∈ items, ∃ offset, it.2.2 = .stack offset wordSize ∧ o = .incoming offset wordSize) ∧
      (∀ m ∈ ops, m.Fits (cx.plan.objects ++ more) cx'.routine.numVRegs) ∧
      ∀ incoming st env, Holds known cx.values st env → Incoming (cx.plan.objects ++ more) incoming st →
        (∀ it ∈ items, argWord st incoming it.2.2 = env it.1) → ∃ st' known', Pseudo.evalAll st ops = some st' ∧
          Holds known' cx'.values st' env ∧ (∀ v, v ∈ known ∨ v ∈ items.map (·.1) → v ∈ known') := by
  induction items generalizing cx known with
  | nil =>
    cases h
    exact ⟨[], [], (Steps.refl hv).takes, by simp, by simp, fun incoming st env hh _ _ =>
      ⟨st, known, rfl, hh, by simp⟩⟩
  | cons it items ih =>
    obtain ⟨param, ty, loc⟩ := it
    obtain ⟨_, cx1, h1, h⟩ := run_bind h
    obtain ⟨ops, more, ht, hmore, hfits, heval⟩ := parameter_spec known hw hv (hty _ List.mem_cons_self)
      (hloc _ List.mem_cons_self) h1
    obtain ⟨ops', more', ht', hmore', hfits', heval'⟩ := ih (param :: known) ht.valid
      (fun it hit => hty it (by simp [hit])) (fun it hit => hloc it (by simp [hit])) h
    have hobjects : cx1.plan.objects ++ more' = cx.plan.objects ++ (more ++ more') := by
      rw [ht.plan, List.append_assoc]
    rw [hobjects] at hfits' heval'
    refine ⟨ops ++ ops', more ++ more', ht.trans ht', fun o ho => ?_, fun m hm => ?_,
      fun incoming st env hh hin harg => ?_⟩
    · rcases List.mem_append.mp ho with ho | ho
      · obtain ⟨offset, hl, rfl⟩ := hmore o ho
        exact ⟨_, List.mem_cons_self, offset, hl, rfl⟩
      · obtain ⟨it, hit, offset, hl, rfl⟩ := hmore' o ho
        exact ⟨it, List.mem_cons_of_mem _ hit, offset, hl, rfl⟩
    · rcases List.mem_append.mp hm with hm | hm
      · rw [← List.append_assoc]
        exact (hfits m hm).mono ht'.grown.numVRegs_le
      · exact hfits' m hm
    · have hin1 : Incoming (cx.plan.objects ++ more) incoming st := fun i offset hi => hin i offset (by
        rw [← List.append_assoc, List.getElem?_append_left (List.getElem?_eq_some_iff.mp hi).1, hi])
      obtain ⟨st1, h1, hh1, hphys, hobj⟩ := heval incoming st env hh hin1 (harg _ List.mem_cons_self)
      have hword (loc : ArgLoc) : argWord st1 incoming loc = argWord st incoming loc := by
        cases loc with
        | reg r => exact hphys r
        | stack offset size => rfl
      obtain ⟨st', known', h2, hh2, hk⟩ := heval' incoming st1 env hh1
        (fun i offset hi => by rw [hobj, hin i offset hi])
        (fun it hit => by rw [hword, harg it (List.mem_cons_of_mem _ hit)])
      refine ⟨st', known', by rw [Pseudo.evalAll_append, h1]; exact h2, hh2, fun v hv => hk v ?_⟩
      simp only [List.map_cons, List.mem_cons] at hv ⊢
      rcases hv with hv | hv | hv
      · exact .inl (.inr hv)
      · exact .inl (.inl hv)
      · exact .inr hv

end Parameters

def wordLoc (k : Nat) : ArgLoc :=
  match intArgRegs[k]? with
  | some r => .reg r
  | none => .stack (wordSize * (k - intArgRegs.length)) wordSize

theorem wordLoc_isWord (k : Nat) : ArgLoc.IsWord (wordLoc k) := by
  unfold wordLoc
  split
  · next r hr => exact List.mem_of_getElem? hr
  · rfl

private theorem place_words (ht : ∀ ty ∈ types, isWord ty = true) (k : Nat) :
    ArgState.place ⟨intArgRegs.drop k, floatArgRegs, wordSize * (k - intArgRegs.length)⟩ types.length types =
      ⟨(List.range' k types.length).map wordLoc, wordSize * (k + types.length - intArgRegs.length)⟩ := by
  induction types generalizing k with
  | nil => rfl
  | cons ty types ih =>
    have hnext : ArgState.next ⟨intArgRegs.drop k, floatArgRegs, wordSize * (k - intArgRegs.length)⟩ true ty =
        (wordLoc k, ⟨intArgRegs.drop (k + 1), floatArgRegs, wordSize * (k + 1 - intArgRegs.length)⟩) := by
      have hword := ht ty (by simp)
      have hstack : ty.stackSize = wordSize := by
        cases ty with
        | f64 => cases hword
        | _ => rfl
      simp only [ArgState.next, isFloat_word hword, Bool.not_true, Bool.false_eq_true, if_false, wordLoc]
      by_cases hk : k < intArgRegs.length
      · rw [List.drop_eq_getElem_cons hk, List.getElem?_eq_getElem hk]
        simp only [show k - intArgRegs.length = 0 by omega, show k + 1 - intArgRegs.length = 0 by omega]
      · rw [List.drop_of_length_le (by omega), List.drop_of_length_le (by omega), List.getElem?_eq_none (by omega)]
        simp only [ArgState.onStack, hstack, show k + 1 - intArgRegs.length = k - intArgRegs.length + 1 by omega,
          Nat.mul_add, Nat.mul_one]
    simp only [List.length_cons, ArgState.place, Nat.zero_lt_succ, decide_true, hnext, Nat.add_sub_cancel,
      ih (fun t ht' => ht t (by simp [ht'])), List.range'_succ, List.map_cons]
    rw [show k + 1 + types.length = k + (types.length + 1) by omega]

theorem assignArguments_words (ht : ∀ ty ∈ types, isWord ty = true) :
    assignArguments types types.length =
      ⟨(List.range types.length).map wordLoc, wordSize * (types.length - intArgRegs.length)⟩ := by
  have h := place_words ht 0
  rw [Nat.zero_add, ← List.range_eq_range'] at h
  exact h

theorem ofArgs_eq {params : List Ir.Value} {args : List Word} (hd : params.Nodup) {p : Ir.Value} {w : Word}
    (hp : params[k]? = some p) (hw : args[k]? = some w) : Ir.Env.ofArgs params args p = w := by
  have hlook : (params.zip args).lookup p = some w := by
    induction params generalizing args k with
    | nil => simp at hp
    | cons q params ih =>
      rw [List.nodup_cons] at hd
      cases args with
      | nil => simp at hw
      | cons x args =>
        rw [List.zip_cons_cons, List.lookup_cons]
        cases k with
        | zero =>
          obtain rfl : q = p := by simpa using hp
          obtain rfl : x = w := by simpa using hw
          simp
        | succ k =>
          rw [List.getElem?_cons_succ] at hp hw
          have hne : (p == q) = false := by
            rw [beq_eq_false_iff_ne]
            rintro rfl
            exact hd.1 (List.mem_of_getElem? hp)
          rw [hne]
          exact ih hd.2 hp hw
  rw [Ir.Env.ofArgs, hlook]
  rfl

section Function

variable {f : Ir.Function} {insts : List Ir.Inst} {results : List Ir.Value} {cx' cx : Context}

private theorem reachable_entry (hf : f.StraightLine insts results) : (reachable f).contains 0 = true := by
  have htaken : addressTaken f = [] := by
    simp only [addressTaken, hf.blocks, List.flatMap_cons, List.flatMap_nil, List.append_nil]
    refine List.filterMap_eq_nil_iff.mpr fun i hi => ?_
    have := hf.straight i hi
    split
    · cases this
    · rfl
  simp [reachable, htaken, hf.blocks, newIn, reach, successorsOf, Ir.Terminator.successors]

def ObjectOf (n : Nat) : FrameObject → Prop
  | .local _ align => 0 < align
  | .incoming offset size => size = wordSize → ∃ k < n, wordLoc k = .stack offset wordSize
  | .returnAddress => False

theorem slotPlan_objects (f : Ir.Function) (n : Nat) :
    ∃ objects, slotPlan f = { objects := objects } ∧ ∀ o ∈ objects, ObjectOf n o := by
  have hfold (slots : List Ir.StackSlot) (objects : List FrameObject) (h : ∀ o ∈ objects, ObjectOf n o) :
      ∃ all, slots.foldl (fun (plan : FramePlan) s => (plan.addLocal s.size s.align).2) { objects := objects } =
        { objects := all } ∧
        ∀ o ∈ all, ObjectOf n o := by
    induction slots generalizing objects with
    | nil => exact ⟨objects, rfl, h⟩
    | cons s rest ih =>
      refine ih (objects ++ [.local s.size (max s.align 1)]) fun o ho => ?_
      rcases List.mem_append.mp ho with ho | ho
      · exact h o ho
      · rw [List.mem_singleton.mp ho]
        exact Nat.lt_of_lt_of_le Nat.zero_lt_one (Nat.le_max_right _ _)
  exact hfold f.slots [] (by simp)

private theorem paramTypes_words (hw : ∀ ty ∈ f.valueTypes, isWord ty = true) :
    ∀ ty ∈ f.paramTypes, isWord ty = true := by
  intro ty hty
  obtain ⟨p, -, rfl⟩ := List.mem_map.mp hty
  rw [List.getD_eq_getElem?_getD]
  cases h : f.valueTypes[p]? with
  | none => rfl
  | some t => exact hw t (List.mem_of_getElem? h)

private theorem parameters_spec (hf : f.StraightLine insts results) (hv : Valid cx)
    (h : (parameters f).run cx = .ok ((), cx')) :
    ∃ ops more, Valid cx' ∧ cx'.out = cx.out ++ ops ∧ Grown cx.routine cx'.routine ∧
      (∃ vararg, cx'.plan = { cx.plan with objects := cx.plan.objects ++ more, vararg := vararg }) ∧
      (∀ o ∈ more, ObjectOf f.params.length o) ∧
      (∀ m ∈ ops, m.Fits (cx.plan.objects ++ more) cx'.routine.numVRegs) ∧
      ∀ args incoming st, args.length = f.params.length → Incoming (cx.plan.objects ++ more) incoming st →
        (∀ (k : Nat) w, args[k]? = some w → argWord st incoming (wordLoc k) = w) →
        ∃ st', Pseudo.evalAll st ops = some st' ∧
          Holds f.params cx'.values st' (Ir.Env.ofArgs f.params args) := by
  obtain ⟨_, -, h⟩ := run_check h
  obtain ⟨_, hplaces, h⟩ := run_check h
  obtain ⟨rfl, -⟩ := planArguments_eq_ok.mp hplaces
  have htypes := paramTypes_words hf.words
  have hplan := assignArguments_words htypes
  have hlen : f.paramTypes.length = f.params.length := by simp [Ir.Function.paramTypes]
  rw [hlen] at hplan
  simp only [hlen, hplan] at h
  obtain ⟨_, cx1, hitems, h⟩ := run_bind h
  have hmem {it : Ir.Value × Ir.Ty × ArgLoc}
      (hit : it ∈ f.params.zip (f.paramTypes.zip ((List.range f.params.length).map wordLoc))) :
      isWord it.2.1 = true ∧ ∃ k < f.params.length, it.2.2 = wordLoc k ∧ f.params[k]? = some it.1 := by
    obtain ⟨k, hk⟩ := List.mem_iff_getElem?.mp hit
    obtain ⟨hparam, hrest⟩ := List.getElem?_zip_eq_some.mp hk
    obtain ⟨hty, hloc⟩ := List.getElem?_zip_eq_some.mp hrest
    have hlt := (List.getElem?_eq_some_iff.mp hparam).1
    refine ⟨htypes _ (List.mem_of_getElem? hty), k, hlt, ?_, hparam⟩
    rw [List.getElem?_map, List.getElem?_range hlt] at hloc
    exact (Option.some.inj hloc).symm
  obtain ⟨ops, more, ht, hmore, hfits, heval⟩ := takeParameters_spec [] hf.words hv (fun it hit => (hmem hit).1)
    (fun it hit => by
      obtain ⟨-, k, -, hk, -⟩ := hmem hit
      rw [hk]
      exact wordLoc_isWord k) hitems
  have hobject : ∀ o ∈ more, ObjectOf f.params.length o := by
    intro o ho
    obtain ⟨it, hit, offset, hl, rfl⟩ := hmore o ho
    obtain ⟨-, k, hlt, hk, -⟩ := hmem hit
    exact fun _ => ⟨k, hlt, hk ▸ hl⟩
  have hvalues (args : List Word) (incoming : Nat → Word) (st : Store) (hargs : args.length = f.params.length)
      (hin : Incoming (cx.plan.objects ++ more) incoming st)
      (harg : ∀ (k : Nat) w, args[k]? = some w → argWord st incoming (wordLoc k) = w) :
      ∃ st', Pseudo.evalAll st ops = some st' ∧
        Holds f.params cx1.values st' (Ir.Env.ofArgs f.params args) := by
    obtain ⟨st', known', h1, h2, h3⟩ := heval incoming st (Ir.Env.ofArgs f.params args) (by simp [Holds]) hin
      fun it hit => by
        obtain ⟨-, k, hlt, hk, hparam⟩ := hmem hit
        obtain ⟨w, hw⟩ : ∃ w, args[k]? = some w := ⟨_, List.getElem?_eq_getElem (hargs ▸ hlt)⟩
        rw [hk, harg k _ hw, ofArgs_eq hf.params_nodup hparam hw]
    refine ⟨st', h1, fun v hv => h2 v (h3 v (.inr ?_))⟩
    rwa [List.map_fst_zip]
    simp [hlen]
  cases hvar : f.variadic with
  | false =>
    rw [hvar] at h
    cases h
    exact ⟨ops, more, ht.valid, ht.out, ht.grown, ⟨cx.plan.vararg, ht.plan⟩, hobject, hfits, hvalues⟩
  | true =>
    rw [hvar] at h
    obtain ⟨index, cx2, hset, h⟩ := run_bind h
    cases hset
    cases h
    refine ⟨ops, more ++ [.incoming (wordSize * (f.params.length - intArgRegs.length)) 0], ht.valid.congr rfl rfl,
      ht.out, ht.grown, ⟨some cx1.plan.objects.length, ?_⟩, fun o ho => ?_,
      fun m hm => ?_, fun args incoming st hlen hin harg => hvalues args incoming st hlen (fun i offset hi => ?_) harg⟩
    · simp only [ht.plan, List.append_assoc]
    · rcases List.mem_append.mp ho with ho | ho
      · exact hobject o ho
      · rw [List.mem_singleton.mp ho]
        exact fun h => by cases h
    · rw [← List.append_assoc]
      exact (hfits m hm).mono (Nat.le_refl _)
    · refine hin i offset ?_
      rw [← List.append_assoc, List.getElem?_append_left (List.getElem?_eq_some_iff.mp hi).1, hi]

private theorem valid_start (f : Ir.Function) :
    Valid { routine := .empty f.name 0, plan := slotPlan f } :=
  ⟨(fun v r h => by cases h), fun u v r h => by cases h⟩

def Returned (results : List Ir.Value) (env : Ir.Env) (st : Store) : Prop :=
  ∀ (i : Nat) v r, results[i]? = some v → (intReturnRegs.take results.length)[i]? = some r → st.regs (.phys r) = env v

private theorem selectBody_spec (hf : f.StraightLine insts results) {blocks : List (List Pseudo)} (hv : Valid cx)
    (hout : cx.out = []) (h : (selectBody f).run cx = .ok (blocks, cx')) :
    results.length ≤ 2 ∧ ∃ ms more, blocks = [ms ++ [.ret (intReturnRegs.take results.length)]] ∧
      Grown cx.routine cx'.routine ∧
      (∃ vararg, cx'.plan = { cx.plan with objects := cx.plan.objects ++ more, vararg := vararg }) ∧
      (∀ o ∈ more, ObjectOf f.params.length o) ∧
      (∀ m ∈ ms, m.Fits (cx.plan.objects ++ more) cx'.routine.numVRegs) ∧
      ∀ args incoming st, args.length = f.params.length → Incoming (cx.plan.objects ++ more) incoming st →
        (∀ (k : Nat) w, args[k]? = some w → argWord st incoming (wordLoc k) = w) →
        Option.Rel (Returned results) (Ir.Inst.evalAll (.ofArgs f.params args) insts) (Pseudo.evalAll st ms) := by
  obtain ⟨_, cx1, hparams, h⟩ := run_bind h
  rw [hf.blocks, selectBlocks, if_pos (reachable_entry hf)] at h
  obtain ⟨head, cx4, hhead, h⟩ := run_bind h
  cases h
  obtain ⟨_, cx2, hinsts, hhead⟩ := run_bind hhead
  obtain ⟨_, cx3, hret, hhead⟩ := run_bind hhead
  cases hhead
  obtain ⟨ops, more, hv1, hout1, hg1, ⟨vararg, hplan⟩, hmore, hfits1, hval1⟩ := parameters_spec hf hv hparams
  obtain ⟨ops2, known, hs2, hfits2, hknown, hval2⟩ := selectInsts_spec hf.words hv1 hf.straight hf.assigned hinsts
  obtain ⟨hlen, ops3, hs3, hfits3, hval3⟩ := ret_spec hf.words hs2.valid hknown hret
  have hobjects : cx1.plan.objects = cx.plan.objects ++ more := by rw [hplan]
  have hgrow := hs2.grown.numVRegs_le
  have hgrow3 := hs3.grown.numVRegs_le
  refine ⟨hlen, ops ++ ops2 ++ ops3, more, ?_, (hg1.trans hs2.grown).trans hs3.grown,
    ⟨vararg, by rw [hs3.plan, hs2.plan, hplan]⟩, hmore, fun m hm => ?_, fun args incoming st hargs hin harg => ?_⟩
  · simp only [hs3.out, hs2.out, hout1, hout, List.nil_append, List.append_assoc]
  · simp only [List.mem_append] at hm
    rcases hm with (hm | hm) | hm
    · exact fits_append (hfits1 m hm) (Nat.le_trans hgrow hgrow3)
    · exact fits_append (hobjects ▸ hfits2 m hm) hgrow3
    · exact hobjects ▸ hs2.plan ▸ hfits3 m hm
  · obtain ⟨st1, h1, hh1⟩ := hval1 args incoming st hargs hin harg
    rw [List.append_assoc, Pseudo.evalAll_append, h1, Option.bind_some, Pseudo.evalAll_append,
      ← Option.bind_fun_some (Ir.Inst.evalAll _ _)]
    refine rel_bind (hval2 st1 _ hh1) fun env st2 hh2 => ?_
    obtain ⟨st3, h3, hreturned⟩ := hval3 st2 env hh2
    rw [h3]
    exact .some hreturned

theorem selectOperations_spec (hf : f.StraightLine insts results) {sel : Selected} (h : f.selectOperations = .ok sel) :
    results.length ≤ 2 ∧ ∃ ms, sel.routine.Plain sel.plan.objects ms (intReturnRegs.take results.length) ∧
      sel.routine.name = f.name ∧ (∃ objects vararg, sel.plan = { objects := objects, vararg := vararg }) ∧
      (∀ o ∈ sel.plan.objects, ObjectOf f.params.length o) ∧
      ∀ args incoming st, args.length = f.params.length → Incoming sel.plan.objects incoming st →
        (∀ (k : Nat) w, args[k]? = some w → argWord st incoming (wordLoc k) = w) →
        Option.Rel (Returned results) (Ir.Inst.evalAll (.ofArgs f.params args) insts) (Pseudo.evalAll st ms) := by
  obtain ⟨_, -, h⟩ := bind_eq_ok.mp h
  obtain ⟨⟨blocks, cx⟩, hbody, h⟩ := bind_eq_ok.mp h
  cases h
  obtain ⟨hlen, ms, more, rfl, hg, ⟨vararg, hplan⟩, hmore, hfits, hval⟩ :=
    selectBody_spec hf (valid_start f) rfl hbody
  obtain ⟨objects, hslots, hslot⟩ := slotPlan_objects f f.params.length
  have hobjects : cx.plan.objects = (slotPlan f).objects ++ more := by rw [hplan]
  refine ⟨hlen, ms, ⟨rfl, hg.gpr (fun cls hc => by cases hc), hg.pool, fun m hm => hobjects ▸ hfits m hm⟩, hg.name,
    ⟨_, vararg, by rw [hplan, hslots]⟩, fun o ho => ?_, hobjects ▸ hval⟩
  rw [hobjects, List.mem_append, hslots] at ho
  rcases ho with ho | ho
  · exact hslot o ho
  · exact hmore o ho

end Function

end DirectPage.Selection
