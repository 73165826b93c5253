import DirectPage.Proofs.SelectionSemantics

/-! Steps of selection, run together with the operations that they append: a step that gives a result, and what the
operations leave in registers. -/
namespace DirectPage.Selection

theorem lift_bind {α β : Type} {x : Checked α} {a : α} (hx : x = .ok a) (k : α → Select β) :
    (liftM x : Select α) >>= k = k a := by
  subst hx
  rfl

def Makes {α : Type} (x : Select α) (cx : Context) (st : Store) (Q : α → Context → Store → Prop) : Prop :=
  ∃ a cx' ops st', x.run cx = .ok (a, cx') ∧ cx'.out = cx.out ++ ops ∧ Pseudo.evalAll st ops = some st' ∧ Q a cx' st'

section Makes

variable {α β : Type} {cx : Context} {st : Store} {Q P : α → Context → Store → Prop} {x : Select α}

theorem Makes.pure {a : α} (h : Q a cx st) : Makes (Pure.pure a) cx st Q :=
  ⟨a, cx, [], st, rfl, by simp, rfl, h⟩

theorem Makes.bind {k : α → Select β} {Q : β → Context → Store → Prop} (h : Makes x cx st P)
    (hk : ∀ a cx' st', P a cx' st' → Makes (k a) cx' st' Q) : Makes (x >>= k) cx st Q := by
  obtain ⟨a, cx1, ops, st1, hrun, hout, heval, hP⟩ := h
  obtain ⟨b, cx2, ops', st2, hrun', hout', heval', hQ⟩ := hk a cx1 st1 hP
  refine ⟨b, cx2, ops ++ ops', st2, ?_, by rw [hout', hout, List.append_assoc], ?_, hQ⟩
  · rw [StateT.run_bind, hrun]
    exact hrun'
  · rw [Pseudo.evalAll_append, heval]
    exact heval'

theorem Makes.mono (h : Makes x cx st P) (hPQ : ∀ a cx' st', P a cx' st' → Q a cx' st') : Makes x cx st Q := by
  obtain ⟨a, cx', ops, st', hrun, hout, heval, hP⟩ := h
  exact ⟨a, cx', ops, st', hrun, hout, heval, hPQ a cx' st' hP⟩

theorem Makes.emit {m : Pseudo} {st' : Store} {P : Unit → Context → Store → Prop} (hm : m.eval st = some st')
    (h : ∀ cx', cx'.values = cx.values → cx'.routine = cx.routine → P () cx' st') : Makes (emit m) cx st P :=
  ⟨(), _, [m], st', rfl, rfl, by rw [Pseudo.evalAll_cons, hm]; rfl, h _ rfl rfl⟩

theorem Makes.uniform {Q : Store → α → Context → Store → Prop} (h : ∀ st, Makes x cx st (Q st)) :
    ∃ a cx' ops, x.run cx = .ok (a, cx') ∧ cx'.out = cx.out ++ ops ∧
      ∀ st, ∃ st', Pseudo.evalAll st ops = some st' ∧ Q st a cx' st' := by
  obtain ⟨a, cx', ops, -, hrun, hout, -⟩ := h ⟨fun _ => 0#32, fun _ => 0#32⟩
  refine ⟨a, cx', ops, hrun, hout, fun st => ?_⟩
  obtain ⟨a', cx'', ops', st', hrun', hout', heval, hQ⟩ := h st
  cases hrun.symm.trans hrun'
  rw [List.append_cancel_left (hout.symm.trans hout')]
  exact ⟨st', heval, hQ⟩

end Makes

def Sequential {β : Type} (ev : Store → List Pseudo → β) : Prop :=
  ∀ st st' ops ops', Pseudo.evalAll st ops = some st' → ev st (ops ++ ops') = ev st' ops'

theorem sequential_evalAll : Sequential Pseudo.evalAll := by
  intro st st' ops ops' h
  rw [Pseudo.evalAll_append, h]
  rfl

/-- Selection that succeeds, and what comes of the operations that it appends; the last of them need not have a
result. -/
def Finishes {β : Type} (ev : Store → List Pseudo → β) (x : Select Unit) (cx : Context) (st : Store)
    (Q : Context → β → Prop) : Prop :=
  ∃ cx' ops, x.run cx = .ok ((), cx') ∧ cx'.out = cx.out ++ ops ∧ Q cx' (ev st ops)

section Finishes

variable {α β : Type} {ev : Store → List Pseudo → β} {cx : Context} {st : Store} {Q : Context → β → Prop}
  {x : Select Unit}

theorem Makes.finishes {x : Select α} {k : α → Select Unit} {P : α → Context → Store → Prop} (h : Makes x cx st P)
    (hev : Sequential ev) (hk : ∀ a cx' st', P a cx' st' → Finishes ev (k a) cx' st' Q) :
    Finishes ev (x >>= k) cx st Q := by
  obtain ⟨a, cx1, ops, st1, hrun, hout, heval, hP⟩ := h
  obtain ⟨cx2, ops', hrun', hout', hQ⟩ := hk a cx1 st1 hP
  refine ⟨cx2, ops ++ ops', ?_, by rw [hout', hout, List.append_assoc], ?_⟩
  · rw [StateT.run_bind, hrun]
    exact hrun'
  · rw [hev st st1 ops ops' heval]
    exact hQ

theorem Finishes.mono {P : Context → β → Prop} (h : Finishes ev x cx st P) (hPQ : ∀ cx' b, P cx' b → Q cx' b) :
    Finishes ev x cx st Q := by
  obtain ⟨cx', ops, hrun, hout, hP⟩ := h
  exact ⟨cx', ops, hrun, hout, hPQ _ _ hP⟩

/-- The operations do not depend on the store in which they are evaluated. -/
theorem Finishes.uniform {Q : Store → Context → β → Prop} (h : ∀ st, Finishes ev x cx st (Q st)) :
    ∃ cx' ops, x.run cx = .ok ((), cx') ∧ cx'.out = cx.out ++ ops ∧ ∀ st, Q st cx' (ev st ops) := by
  obtain ⟨cx', ops, hrun, hout, -⟩ := h ⟨fun _ => 0#32, fun _ => 0#32⟩
  refine ⟨cx', ops, hrun, hout, fun st => ?_⟩
  obtain ⟨cx'', ops', hrun', hout', hQ⟩ := h st
  cases hrun.symm.trans hrun'
  rw [List.append_cancel_left (hout.symm.trans hout')]
  exact hQ

end Finishes

structure Later (cx : Context) (st : Store) (cx' : Context) (st' : Store) : Prop where
  values : cx'.values = cx.values
  vregs : cx.routine.numVRegs ≤ cx'.routine.numVRegs
  regs : ∀ k < cx.routine.numVRegs, st'.regs (.virt k) = st.regs (.virt k)

structure Has (n : Nat) (cx : Context) (st : Store) (r : Reg) (w : Word) : Prop where
  virt : ∃ k, r = .virt k ∧ n ≤ k ∧ k < cx.routine.numVRegs
  word : st.regs r = w

section Later

variable {cx cx' cx'' : Context} {st st' st'' : Store} {r : Reg} {w : Word} {n : Nat} {m : Reg → Pseudo}

theorem Later.refl (cx : Context) (st : Store) : Later cx st cx st := ⟨rfl, Nat.le_refl _, fun _ _ => rfl⟩

theorem Later.trans (h : Later cx st cx' st') (h' : Later cx' st' cx'' st'') : Later cx st cx'' st'' where
  values := h'.values.trans h.values
  vregs := Nat.le_trans h.vregs h'.vregs
  regs k hk := (h'.regs k (Nat.lt_of_lt_of_le hk h.vregs)).trans (h.regs k hk)

theorem Has.later (h : Has n cx st r w) (hl : Later cx st cx' st') : Has n cx' st' r w := by
  obtain ⟨⟨k, rfl, hn, hk⟩, hw⟩ := h
  exact ⟨⟨k, rfl, hn, Nat.lt_of_lt_of_le hk hl.vregs⟩, (hl.regs k hk).trans hw⟩

theorem Has.mono {n' : Nat} (h : Has n cx st r w) (hle : n' ≤ n) : Has n' cx st r w := by
  obtain ⟨⟨k, hr, hn, hk⟩, hw⟩ := h
  exact ⟨⟨k, hr, Nat.le_trans hle hn, hk⟩, hw⟩

def Gives (cx : Context) (st : Store) (w : Word) (r : Reg) (cx' : Context) (st' : Store) : Prop :=
  Later cx st cx' st' ∧ Has cx.routine.numVRegs cx' st' r w

/-- An operation into a new register. -/
theorem makes_temp (hm : ∀ r, (m r).eval st = some (st.set r w)) :
    Makes (do let d ← temp .gpr; emit (m d); return d) cx st (Gives cx st w) := by
  have hn := numVRegs_newVReg cx.routine .gpr
  have hlt : cx.routine.numVRegs < (cx.routine.newVReg .gpr).2.numVRegs := by omega
  refine ⟨.virt cx.routine.numVRegs, _, [m (.virt cx.routine.numVRegs)], st.set (.virt cx.routine.numVRegs) w, rfl, rfl,
    ?_, ⟨rfl, Nat.le_of_lt hlt, fun k hk => Store.regs_set_ne _ ?_ _⟩, ⟨_, rfl, Nat.le_refl _, hlt⟩, by simp⟩
  · rw [Pseudo.evalAll_cons, hm]
    rfl
  · intro he
    have := Reg.virt.inj he
    omega

/-- An operation into a new register, and what is done with it. -/
theorem makes_temp_bind {β : Type} {k : Reg → Select β} {Q : β → Context → Store → Prop}
    (hm : ∀ r, (m r).eval st = some (st.set r w)) (hk : ∀ r cx' st', Gives cx st w r cx' st' → Makes (k r) cx' st' Q) :
    Makes (do let d ← temp .gpr; emit (m d); k d) cx st Q :=
  (makes_temp hm).bind hk

end Later

section Values

variable {f : Ir.Function} {cx : Context} {st : Store}

structure Found (cx : Context) (st : Store) (v : Ir.Value) (r : Reg) (cx' : Context) (st' : Store) : Prop where
  valid : Valid cx'
  register : cx'.values.lookup v = some r
  values : ∀ u q, cx.values.lookup u = some q → cx'.values.lookup u = some q
  store : st' = st

variable {v : Ir.Value} {r : Reg} {cx' : Context} {st' : Store}

theorem reg_makes {ty : Ir.Ty} (hv : Valid cx) (hty : f.valueType v = .ok ty) :
    Makes (reg f v) cx st (Found cx st v) := by
  cases hr : cx.values.lookup v with
  | some r =>
    refine ⟨r, cx, [], st, ?_, by simp, rfl, hv, hr, fun _ _ => id, rfl⟩
    simp only [reg, StateT.run_bind, StateT.run_get, pure_bind, hr]
    rfl
  | none =>
    refine ⟨.virt cx.routine.numVRegs, _, [], st, ?_, ?_, rfl, hv.assign (bankOf ty) v, List.lookup_cons_self,
      fun u q hu => lookup_cons_of_none hr hu, rfl⟩
    · simp only [reg, StateT.run_bind, StateT.run_get, pure_bind, hr, hty]
      rfl
    · simp

def Context.words (cx : Context) (st : Store) : Ir.Env :=
  fun v => ((cx.values.lookup v).map st.regs).getD 0#32

theorem Context.words_eq (h : cx.values.lookup v = some r) : cx.words st v = st.regs r := by
  rw [Context.words, h]
  rfl

theorem Context.words_congr (h : cx'.values = cx.values) : cx'.words = cx.words := by
  unfold Context.words
  rw [h]

/-- Values that have registers keep their words when others are given registers. -/
theorem Context.words_keep (hv : ∃ r, cx.values.lookup v = some r)
    (hkeep : ∀ u q, cx.values.lookup u = some q → cx'.values.lookup u = some q) (st : Store) :
    cx'.words st v = cx.words st v := by
  obtain ⟨r, hr⟩ := hv
  rw [cx.words_eq hr, cx'.words_eq (hkeep _ _ hr)]

theorem Valid.words_later (hv : Valid cx) (hl : Later cx st cx' st') : cx.words st' = cx.words st := by
  funext v
  unfold Context.words
  cases hr : cx.values.lookup v with
  | none => rfl
  | some r =>
    obtain ⟨k, rfl, hk⟩ := hv.virt v r hr
    exact hl.regs k hk

theorem Holds.later {known : List Ir.Value} {env : Ir.Env} (h : Holds known cx.values st env) (hv : Valid cx)
    (hl : Later cx st cx' st') : Holds known cx.values st' env := by
  intro v hk
  obtain ⟨r, hr, he⟩ := h v hk
  obtain ⟨k, rfl, hlt⟩ := hv.virt v r hr
  exact ⟨_, hr, (hl.regs k hlt).trans he⟩

theorem Valid.later (hv : Valid cx) (hvalues : cx'.values = cx.values)
    (hle : cx.routine.numVRegs ≤ cx'.routine.numVRegs) : Valid cx' := by
  refine ⟨fun v r hr => ?_, hvalues ▸ hv.inj⟩
  obtain ⟨k, hk, hlt⟩ := hv.virt v r (hvalues ▸ hr)
  exact ⟨k, hk, Nat.lt_of_lt_of_le hlt hle⟩

theorem Valid.has (hv : Valid cx) (hr : cx.values.lookup v = some r) : Has 0 cx st r (st.regs r) := by
  obtain ⟨k, rfl, hk⟩ := hv.virt v r hr
  exact ⟨⟨k, rfl, Nat.zero_le _, hk⟩, rfl⟩

/-- A new register is the register of no value. -/
theorem Has.ne {d : Reg} {w : Word} (h : Has cx.routine.numVRegs cx' st' r w) (hv : Valid cx)
    (hd : cx.values.lookup v = some d) : r ≠ d := by
  obtain ⟨⟨k, rfl, hn, -⟩, -⟩ := h
  obtain ⟨k', rfl, hk'⟩ := hv.virt v d hd
  intro he
  have := Reg.virt.inj he
  omega

end Values

end DirectPage.Selection
