import DirectPage.Proofs.AssignSemantics
import DirectPage.Proofs.SpillCode

/-! Spill code keeps what operations compute: a spilled register is found in its frame object. -/
namespace DirectPage.Allocation

/-- Objects behind the first `bound` ones for registers with numbers below `n`, all different and in order. -/
structure Apart (n bound : Nat) (slots : List SpillSlot) : Prop where
  sorted : slots.Pairwise fun s t => s.vreg < t.vreg ∧ s.index ≠ t.index
  slot : ∀ s ∈ slots, s.vreg < n ∧ bound ≤ s.index ∧ s.cls = .gpr

/-- Stores before and after spilling. Registers with numbers from `n` on, and objects from `bound` on, are
there only after it. -/
structure Spread (n bound : Nat) (slots : List SpillSlot) (st st' : Store) : Prop where
  kept : ∀ r : Reg, r.Below n → (∀ s ∈ slots, r ≠ .virt s.vreg) → st.regs r = st'.regs r
  spilled : ∀ s ∈ slots, st.regs (.virt s.vreg) = st'.objects s.index
  objects : ∀ i < bound, st.objects i = st'.objects i

def unspill (slots : List SpillSlot) (st : Store) : Store where
  regs r := match slots.find? fun s => r == .virt s.vreg with
    | some s => st.objects s.index
    | none => st.regs r
  objects := st.objects

section Slots

variable {n bound : Nat} {slots : List SpillSlot}

theorem Apart.unique (h : Apart n bound slots) {s t : SpillSlot} (hs : s ∈ slots) (ht : t ∈ slots)
    (he : s.vreg = t.vreg ∨ s.index = t.index) : s = t := by
  have hd := h.sorted
  clear h
  induction slots with
  | nil => cases hs
  | cons x rest ih =>
    rw [List.pairwise_cons] at hd
    rcases List.mem_cons.mp hs with rfl | hs' <;> rcases List.mem_cons.mp ht with rfl | ht'
    · rfl
    · have := hd.1 t ht'
      omega
    · have := hd.1 s hs'
      omega
    · exact ih hs' ht' hd.2

theorem spread_unspill (h : Apart n bound slots) (st : Store) :
    Spread n bound slots (unspill slots st) st where
  kept r _ hr := by
    have hnone : slots.find? (fun s => r == .virt s.vreg) = none := by simpa using hr
    simp only [unspill, hnone]
  spilled s hs := by
    simp only [unspill]
    cases hf : slots.find? fun t => Reg.virt s.vreg == .virt t.vreg with
    | none => simpa using List.find?_eq_none.mp hf s hs
    | some t =>
      have hv : s.vreg = t.vreg := by simpa using List.find?_some hf
      rw [h.unique hs (List.mem_of_find?_eq_some hf) (.inl hv)]
  objects _ _ := rfl

end Slots

section Around

variable {n : Nat} {m : Pseudo} {done : List SpillSlot} {s : SpillSlot} {σ : Reg → Reg} {sp : Spilled}

/-- The operation in the midst of its spill code computes what it computed before, once the registers of
`done` that it reads are loaded into the ones that `σ` gives. -/
structure Reads (n : Nat) (m : Pseudo) (done : List SpillSlot) (σ : Reg → Reg) (sp : Spilled) : Prop where
  vregs : n ≤ sp.routine.numVRegs
  word : sp.inst.isWordOp = true
  source : sp.inst.source? = m.source?
  object : sp.inst.object? = m.object?
  result : ∀ st : Store, sp.inst.result st = m.result (st.pull σ)
  same : ∀ r : Reg, r.Below n → (∀ s ∈ done, r ≠ .virt s.vreg) → σ r = r
  fresh : ∀ s ∈ done, .virt s.vreg ∈ m.uses →
    ∃ t, σ (.virt s.vreg) = .virt t ∧ n ≤ t ∧ t < sp.routine.numVRegs
  loads : ∀ st : Store, ∃ st1, Pseudo.evalAll st sp.before = some st1 ∧ st1.objects = st.objects ∧
    (∀ r : Reg, r.Below n → st1.regs r = st.regs r) ∧
    ∀ s ∈ done, .virt s.vreg ∈ m.uses → st1.regs (σ (.virt s.vreg)) = st.objects s.index

/-- Where the result goes: to its register, or if that is one of `done`, through a new register to its frame
object. -/
structure Lands (n : Nat) (m : Pseudo) (done : List SpillSlot) (sp : Spilled) : Prop where
  kept : (∀ s ∈ done, m.dst? ≠ some (.virt s.vreg)) → sp.inst.dst? = m.dst? ∧ sp.after = []
  saved : ∀ s ∈ done, m.dst? = some (.virt s.vreg) → ∃ t, n ≤ t ∧ sp.inst.dst? = some (.virt t) ∧
    sp.after = [.store (.virt t) .word (.frame s.index) 0#32]

private theorem read_eq (hc : s.cls = .gpr) : sp.read s =
    { routine := (sp.routine.newTemp .gpr).2
      before := sp.before ++ [.load (.virt sp.routine.numVRegs) .word .zero (.frame s.index) 0#32]
      inst := sp.inst.mapRegs fun r => if r = .virt s.vreg then .virt sp.routine.numVRegs else r
      after := sp.after } := by
  simp only [Spilled.read, reload, hc]
  rfl

private theorem write_eq (hc : s.cls = .gpr) : sp.store s =
    { routine := (sp.routine.newTemp .gpr).2
      before := sp.before
      inst := sp.inst.withDst (.virt sp.routine.numVRegs)
      after := sp.after ++ [.store (.virt sp.routine.numVRegs) .word (.frame s.index) 0#32] } := by
  simp only [Spilled.store, saveBack, hc]
  rfl

private theorem numVRegs_newTemp (f : Routine) (cls : RegClass) : (f.newTemp cls).2.numVRegs = f.numVRegs + 1 := by
  simp [Routine.newTemp, Routine.numVRegs]

theorem Reads.start {f : Routine} (hn : n ≤ f.numVRegs) (hm : m.isWordOp = true) :
    Reads n m [] id ⟨f, [], m, []⟩ where
  vregs := hn
  word := hm
  source := rfl
  object := rfl
  result _ := rfl
  same _ _ _ := rfl
  fresh := by simp
  loads st := ⟨st, rfl, rfl, fun _ _ => rfl, by simp⟩

theorem Reads.skip (h : Reads n m done σ sp) (hs : .virt s.vreg ∉ m.uses) : Reads n m (done ++ [s]) σ sp :=
  { h with
    same := fun r hr hd => h.same r hr fun t ht => hd t (by simp [ht])
    fresh := fun t ht hu => by
      rcases List.mem_append.mp ht with ht | ht
      · exact h.fresh t ht hu
      · rw [List.mem_singleton.mp ht] at hu
        exact absurd hu hs
    loads := fun st => by
      obtain ⟨st1, h1, h2, h3, h4⟩ := h.loads st
      refine ⟨st1, h1, h2, h3, fun t ht hu => ?_⟩
      rcases List.mem_append.mp ht with ht | ht
      · exact h4 t ht hu
      · rw [List.mem_singleton.mp ht] at hu
        exact absurd hu hs }

theorem Reads.write (h : Reads n m done σ sp) (hc : s.cls = .gpr) : Reads n m done σ (sp.store s) := by
  have hn := numVRegs_newTemp sp.routine .gpr
  rw [write_eq hc]
  exact
    { h with
      vregs := by rw [hn]; exact Nat.le_succ_of_le h.vregs
      word := by rw [Pseudo.isWordOp_withDst, h.word]
      source := by rw [Pseudo.source?_withDst, h.source]
      object := by rw [Pseudo.object?_withDst, h.object]
      result := fun st => by rw [Pseudo.result_withDst, h.result]
      fresh := fun t ht hu => by
        obtain ⟨k, hk, hle, hlt⟩ := h.fresh t ht hu
        exact ⟨k, hk, hle, by rw [hn]; exact Nat.lt_succ_of_lt hlt⟩ }

private def redirect (v t : Nat) (r : Reg) : Reg := if r = .virt v then .virt t else r

private theorem redirect_self (v t : Nat) : redirect v t (.virt v) = .virt t := if_pos rfl

private theorem redirect_ne {v t : Nat} {r : Reg} (h : r ≠ .virt v) : redirect v t r = r := if_neg h

theorem Reads.read (h : Reads n m done σ sp) (hc : s.cls = .gpr) (hv : s.vreg < n)
    (hd : ∀ t ∈ done, t.vreg ≠ s.vreg) :
    Reads n m (done ++ [s]) (fun r => redirect s.vreg sp.routine.numVRegs (σ r)) (sp.read s) := by
  have hn := numVRegs_newTemp sp.routine .gpr
  have hself : σ (.virt s.vreg) = .virt s.vreg :=
    h.same _ hv fun t ht he => hd t ht (Reg.virt.inj he).symm
  have hdone {t : SpillSlot} {k : Nat} (hk : σ (.virt t.vreg) = .virt k) (hle : n ≤ k) :
      redirect s.vreg sp.routine.numVRegs (σ (.virt t.vreg)) = .virt k := by
    rw [hk, redirect_ne]
    intro he
    have := Reg.virt.inj he
    omega
  rw [read_eq hc]
  refine
    { vregs := by rw [hn]; exact Nat.le_succ_of_le h.vregs
      word := by rw [Pseudo.isWordOp_mapRegs, h.word]
      source := by rw [Pseudo.source?_mapRegs, h.source]
      object := by rw [Pseudo.object?_mapRegs, h.object]
      result := fun st => by rw [Pseudo.result_mapRegs h.word, h.result]; rfl
      same := fun r hr hne => ?_
      fresh := fun t ht hu => ?_
      loads := fun st => ?_ }
  · rw [h.same r hr fun t ht => hne t (by simp [ht]), redirect_ne (hne s (by simp))]
  · rcases List.mem_append.mp ht with ht | ht
    · obtain ⟨k, hk, hle, hlt⟩ := h.fresh t ht hu
      exact ⟨k, hdone hk hle, hle, by rw [hn]; exact Nat.lt_succ_of_lt hlt⟩
    · rw [List.mem_singleton.mp ht, hself, redirect_self]
      exact ⟨_, rfl, h.vregs, by rw [hn]; exact Nat.lt_succ_self _⟩
  · obtain ⟨st1, h1, h2, h3, h4⟩ := h.loads st
    refine ⟨st1.set (.virt sp.routine.numVRegs) (st.objects s.index), ?_, h2, fun r hr => ?_, fun t ht hu => ?_⟩
    · rw [Pseudo.evalAll_append, h1, ← h2]
      rfl
    · rw [Store.regs_set_ne, h3 r hr]
      rintro rfl
      exact absurd hr (Nat.not_lt.mpr h.vregs)
    · rcases List.mem_append.mp ht with ht | ht
      · obtain ⟨k, hk, hle, hlt⟩ := h.fresh t ht hu
        have hne : Reg.virt k ≠ .virt sp.routine.numVRegs := fun he => by
          have := Reg.virt.inj he
          omega
        rw [hdone hk hle, Store.regs_set_ne _ hne, ← hk, h4 t ht hu]
      · rw [List.mem_singleton.mp ht, hself, redirect_self, Store.regs_set_self]

theorem Lands.start {f : Routine} : Lands n m [] ⟨f, [], m, []⟩ where
  kept _ := ⟨rfl, rfl⟩
  saved := by simp

private theorem dst?_isSome_read (hc : s.cls = .gpr) : (sp.read s).inst.dst?.isSome = sp.inst.dst?.isSome := by
  rw [read_eq hc, Pseudo.dst?_mapRegs, Option.isSome_map]

private theorem after_read (hc : s.cls = .gpr) : (sp.read s).after = sp.after := by rw [read_eq hc]

/-- A reload leaves a register of the result alone unless that is the spilled one. -/
private theorem dst?_read (hc : s.cls = .gpr) {d : Reg} (hd : sp.inst.dst? = some d) (hne : d ≠ .virt s.vreg) :
    (sp.read s).inst.dst? = some d := by
  rw [read_eq hc, Pseudo.dst?_mapRegs, hd, Option.map_some, if_neg hne]

private theorem Lands.read (h : Lands n m done sp) (hc : s.cls = .gpr) (hv : s.vreg < n)
    (hs : m.dst? ≠ some (.virt s.vreg)) : Lands n m done (sp.read s) where
  kept hk := by
    obtain ⟨h1, h2⟩ := h.kept hk
    rw [after_read hc]
    refine ⟨?_, h2⟩
    cases hd : m.dst? with
    | none =>
      rw [read_eq hc, Pseudo.dst?_mapRegs, h1, hd]
      rfl
    | some d =>
      refine dst?_read hc (by rw [h1, hd]) fun he => hs ?_
      rw [hd, he]
  saved t ht hd := by
    obtain ⟨k, hk, h1, h2⟩ := h.saved t ht hd
    refine ⟨k, hk, dst?_read hc h1 fun he => ?_, by rw [after_read hc, h2]⟩
    have := Reg.virt.inj he
    omega

private theorem Lands.skip (h : Lands n m done sp) (hs : m.dst? ≠ some (.virt s.vreg)) :
    Lands n m (done ++ [s]) sp where
  kept hk := h.kept fun t ht => hk t (by simp [ht])
  saved t ht hd := by
    rcases List.mem_append.mp ht with ht | ht
    · exact h.saved t ht hd
    · rw [List.mem_singleton.mp ht] at hd
      exact absurd hd hs

private theorem Lands.write (hafter : sp.after = []) (hsome : sp.inst.dst?.isSome = true)
    (hn : n ≤ sp.routine.numVRegs) (hc : s.cls = .gpr) (hs : m.dst? = some (.virt s.vreg))
    (hd : ∀ t ∈ done, t.vreg ≠ s.vreg) : Lands n m (done ++ [s]) (sp.store s) where
  kept hk := absurd hs (hk s (by simp))
  saved t ht hdt := by
    obtain ⟨d, hsome⟩ := Option.isSome_iff_exists.mp hsome
    rcases List.mem_append.mp ht with ht | ht
    · rw [hs] at hdt
      exact absurd (Reg.virt.inj (Option.some.inj hdt)).symm (hd t ht)
    · rw [List.mem_singleton.mp ht, write_eq hc]
      exact ⟨_, hn, by rw [Pseudo.dst?_withDst, hsome]; rfl, by rw [hafter]; rfl⟩

theorem around_step (hm : m.isWordOp = true) (hr : Reads n m done σ sp) (hl : Lands n m done sp)
    (hc : s.cls = .gpr) (hv : s.vreg < n) (hd : ∀ t ∈ done, t.vreg ≠ s.vreg) :
    ∃ σ', Reads n m (done ++ [s]) σ' (sp.pass m s) ∧ Lands n m (done ++ [s]) (sp.pass m s) := by
  have hdefs : m.defs.contains (.virt s.vreg) = true ↔ m.dst? = some (.virt s.vreg) := by
    rw [Pseudo.defs_of_isWordOp hm, List.contains_iff_mem, Option.mem_toList]
  simp only [Spilled.pass]
  by_cases hw : m.dst? = some (.virt s.vreg)
  · rw [if_pos (hdefs.mpr hw)]
    have hk : ∀ t ∈ done, m.dst? ≠ some (.virt t.vreg) := fun t ht he => by
      rw [hw] at he
      exact hd t ht (Reg.virt.inj (Option.some.inj he)).symm
    obtain ⟨hdst, hafter⟩ := hl.kept hk
    have hsome : sp.inst.dst?.isSome = true := by rw [hdst, hw]; rfl
    by_cases hu : m.uses.contains (.virt s.vreg) = true
    · rw [if_pos hu]
      have hread := hr.read hc hv hd
      exact ⟨_, hread.write hc, .write (by rw [after_read hc, hafter]) (by rw [dst?_isSome_read hc, hsome])
        hread.vregs hc hw hd⟩
    · rw [if_neg hu]
      exact ⟨_, (hr.skip (by simpa using hu)).write hc, .write hafter hsome hr.vregs hc hw hd⟩
  · rw [if_neg fun h => hw (hdefs.mp h)]
    by_cases hu : m.uses.contains (.virt s.vreg) = true
    · rw [if_pos hu]
      exact ⟨_, hr.read hc hv hd, (hl.read hc hv hw).skip hw⟩
    · rw [if_neg hu]
      exact ⟨_, hr.skip (by simpa using hu), hl.skip hw⟩

theorem around_foldl (hm : m.isWordOp = true) {bound : Nat} {rest : List SpillSlot}
    (ha : Apart n bound (done ++ rest)) (hr : Reads n m done σ sp) (hl : Lands n m done sp) :
    ∃ σ', Reads n m (done ++ rest) σ' (rest.foldl (Spilled.pass m) sp) ∧
      Lands n m (done ++ rest) (rest.foldl (Spilled.pass m) sp) := by
  induction rest generalizing done σ sp with
  | nil => exact ⟨σ, by simpa using hr, by simpa using hl⟩
  | cons s rest ih =>
    obtain ⟨hv, -, hc⟩ := ha.slot s (by simp)
    have hd : ∀ t ∈ done, t.vreg ≠ s.vreg := fun t ht =>
      Nat.ne_of_lt ((List.pairwise_append.mp ha.sorted).2.2 t ht s (by simp)).1
    obtain ⟨σ', hr', hl'⟩ := around_step hm hr hl hc hv hd
    rw [List.append_cons] at ha ⊢
    exact ih ha hr' hl'

end Around

section Eval

variable {n bound : Nat} {slots : List SpillSlot} {st st' : Store} {m : Pseudo} {f : Routine}

section Spread

variable {st1 : Store} (h : Spread n bound slots st st') (hobj : st1.objects = st'.objects)
  (hregs : ∀ r : Reg, r.Below n → st1.regs r = st'.regs r) (w : Word)
include h hobj hregs

private theorem Spread.put (ha : Apart n bound slots) {i : Nat} (hi : i < bound) :
    Spread n bound slots (st.put i w) (st1.put i w) where
  kept r hr hne := by rw [Store.regs_put, Store.regs_put, h.kept r hr hne, hregs r hr]
  spilled s hs := by
    have hb := (ha.slot s hs).2.1
    rw [Store.regs_put, h.spilled s hs, Store.objects_put_ne _ (by omega), hobj]
  objects j hj := by
    by_cases he : j = i
    · subst he
      simp
    · rw [Store.objects_put_ne _ he, Store.objects_put_ne _ he, h.objects j hj, hobj]

private theorem Spread.set {d : Reg} (hd : ∀ s ∈ slots, d ≠ .virt s.vreg) :
    Spread n bound slots (st.set d w) (st1.set d w) where
  kept r hr hne := by
    by_cases he : r = d
    · subst he
      simp
    · rw [Store.regs_set_ne _ he, Store.regs_set_ne _ he, h.kept r hr hne, hregs r hr]
  spilled s hs := by
    rw [Store.regs_set_ne _ (hd s hs).symm, h.spilled s hs, Store.objects_set, hobj]
  objects i hi := by rw [Store.objects_set, Store.objects_set, h.objects i hi, hobj]

private theorem Spread.save (ha : Apart n bound slots) {s : SpillSlot} (hs : s ∈ slots) {t : Nat} (ht : n ≤ t) :
    Spread n bound slots (st.set (.virt s.vreg) w) ((st1.set (.virt t) w).put s.index w) where
  kept r hr hne := by
    have hrt : r ≠ .virt t := by
      rintro rfl
      exact absurd hr (Nat.not_lt.mpr ht)
    rw [Store.regs_set_ne _ (hne s hs), Store.regs_put, Store.regs_set_ne _ hrt, h.kept r hr hne, hregs r hr]
  spilled u hu := by
    by_cases he : u = s
    · subst he
      simp
    · have hv : Reg.virt u.vreg ≠ .virt s.vreg := fun hv => he (ha.unique hu hs (.inl (Reg.virt.inj hv)))
      have hx : u.index ≠ s.index := fun hx => he (ha.unique hu hs (.inr hx))
      rw [Store.regs_set_ne _ hv, h.spilled u hu, Store.objects_put_ne _ hx, Store.objects_set, hobj]
  objects i hi := by
    have hb := (ha.slot s hs).2.1
    rw [Store.objects_set, Store.objects_put_ne _ (by omega), Store.objects_set, h.objects i hi, hobj]

end Spread

/-- An operation in the midst of its spill code does what it did before. -/
theorem patchInst_eval (ha : Apart n bound slots) (hn : n ≤ f.numVRegs) (hm : m.isWordOp = true)
    (hregs : ∀ r ∈ m.regs, r.Below n) (hsource : ∀ i, m.source? = some i → i < bound)
    (hobject : ∀ i, m.object? = some i → i < bound) (h : Spread n bound slots st st') :
    Option.Rel (Spread n bound slots) (m.eval st) (Pseudo.evalAll st' (patchInst slots f m).1) := by
  obtain ⟨σ, hr, hl⟩ := around_foldl hm ha (Reads.start hn hm) Lands.start
  simp only [patchInst]
  generalize slots.foldl (Spilled.pass m) ⟨f, [], m, []⟩ = sp at hr hl
  obtain ⟨st1, h1, hobj, hregs1, hloads⟩ := hr.loads st'
  have hres : sp.inst.result st1 = m.result st := by
    rw [hr.result]
    refine Pseudo.result_congr hm (fun u hu => ?_) fun i hi => ?_
    · have hb := hregs u (Pseudo.mem_regs_of_mem_uses hm hu)
      by_cases hs : ∃ s ∈ slots, u = .virt s.vreg
      · obtain ⟨s, hs, rfl⟩ := hs
        exact (hloads s hs hu).trans (h.spilled s hs).symm
      · have hne : ∀ s ∈ slots, u ≠ .virt s.vreg := fun s hs' he => hs ⟨s, hs', he⟩
        rw [h.kept u hb hne, ← hregs1 u hb, Store.regs_pull, hr.same u hb hne]
    · rw [h.objects i (hsource i hi), ← hobj]
      rfl
  rw [Pseudo.evalAll_append, h1, Option.bind_some, Pseudo.evalAll_cons, Pseudo.eval, Pseudo.eval, hres]
  cases m.result st with
  | none => exact .none
  | some w =>
    simp only [Option.map_some, Option.bind_some, Pseudo.commit, hr.object]
    rcases Pseudo.target_of_isWordOp hm with ⟨index, hi, hd⟩ | ⟨dst, hi, hd⟩
    · simp only [hi, (hl.kept (by simp [hd])).2, Pseudo.evalAll_nil]
      exact .some (h.put hobj hregs1 w ha (hobject index hi))
    · have hb := hregs dst (Pseudo.mem_regs_of_dst? hd)
      by_cases hs : ∃ s ∈ slots, dst = .virt s.vreg
      · obtain ⟨s, hs, rfl⟩ := hs
        obtain ⟨t, ht, hdst, hafter⟩ := hl.saved s hs hd
        simp only [hi, hd, hdst, hafter]
        have hput : Pseudo.evalAll (st1.set (.virt t) w) [.store (.virt t) .word (.frame s.index) 0#32] =
            some ((st1.set (.virt t) w).put s.index w) := by
          simp [Pseudo.eval, Pseudo.result, Pseudo.commit, Pseudo.object?]
        rw [hput]
        exact .some (h.save hobj hregs1 w ha hs ht)
      · have hne : ∀ s ∈ slots, dst ≠ .virt s.vreg := fun s hs' he => hs ⟨s, hs', he⟩
        obtain ⟨hdst, hafter⟩ := hl.kept fun s hs' he => hne s hs' (Option.some.inj (hd.symm.trans he))
        simp only [hi, hdst, hd, hafter, Pseudo.evalAll_nil]
        exact .some (h.set hobj hregs1 w hne)

end Eval

structure Grown (f g : Routine) : Prop where
  name : g.name = f.name
  pool : g.pool = f.pool
  classes : ∃ k, g.classes = f.classes ++ List.replicate k RegClass.gpr

namespace Grown

variable {f g h : Routine}

theorem refl (f : Routine) : Grown f f := ⟨rfl, rfl, 0, by simp⟩

theorem trans (hfg : Grown f g) (hgh : Grown g h) : Grown f h := by
  obtain ⟨k, hk⟩ := hfg.classes
  obtain ⟨l, hl⟩ := hgh.classes
  refine ⟨hgh.name.trans hfg.name, hgh.pool.trans hfg.pool, k + l, ?_⟩
  rw [hl, hk, List.append_assoc, List.replicate_append_replicate]

theorem newTemp (f : Routine) : Grown f (f.newTemp .gpr).2 := ⟨rfl, rfl, 1, rfl⟩

theorem numVRegs_le (h : Grown f g) : f.numVRegs ≤ g.numVRegs := by
  obtain ⟨k, hk⟩ := h.classes
  simp [Routine.numVRegs, hk]

theorem gpr (h : Grown f g) (hf : ∀ cls ∈ f.classes, cls = .gpr) : ∀ cls ∈ g.classes, cls = .gpr := by
  obtain ⟨k, hk⟩ := h.classes
  intro cls hc
  rw [hk, List.mem_append] at hc
  rcases hc with hc | hc
  · exact hf cls hc
  · exact List.eq_of_mem_replicate hc

end Grown

section Fits

variable {objects : List FrameObject} {m : Pseudo} {s : SpillSlot} {sp : Spilled} {f : Routine}

structure Tidy (objects : List FrameObject) (f : Routine) (sp : Spilled) : Prop where
  grown : Grown f sp.routine
  inst : sp.inst.Fits objects sp.routine.numVRegs
  before : ∀ x ∈ sp.before, x.Fits objects sp.routine.numVRegs
  after : ∀ x ∈ sp.after, x.Fits objects sp.routine.numVRegs

private theorem fits_succ {n : Nat} (h : m.Fits objects n) : m.Fits objects (n + 1) := by
  have h' : m.Fits (objects ++ []) (n + 1) := h.mono (Nat.le_succ n)
  rwa [List.append_nil] at h'

private theorem fits_load (hs : objects[s.index]? = some (.local wordSize wordSize)) (n : Nat) :
    Pseudo.Fits objects (n + 1) (.load (.virt n) .word .zero (.frame s.index) 0#32) where
  word := rfl
  below r hr := by
    obtain rfl : r = .virt n := by simpa [Pseudo.regs, MemBase.regs] using hr
    exact Nat.lt_succ_self n
  args r hr := by simp [Pseudo.regs, MemBase.regs] at hr
  source i hi := by
    cases hi
    exact ⟨_, hs, rfl⟩
  object i hi := by cases hi

private theorem fits_store (hs : objects[s.index]? = some (.local wordSize wordSize)) (n : Nat) :
    Pseudo.Fits objects (n + 1) (.store (.virt n) .word (.frame s.index) 0#32) where
  word := rfl
  below r hr := by
    obtain rfl : r = .virt n := by simpa [Pseudo.regs, MemBase.regs] using hr
    exact Nat.lt_succ_self n
  args r hr := by simp [Pseudo.regs, MemBase.regs] at hr
  source i hi := by cases hi
  object i hi := by
    cases hi
    exact ⟨_, hs⟩

private theorem Tidy.read (h : Tidy objects f sp) (hc : s.cls = .gpr)
    (hs : objects[s.index]? = some (.local wordSize wordSize)) : Tidy objects f (sp.read s) := by
  have hn := numVRegs_newTemp sp.routine .gpr
  rw [read_eq hc]
  refine ⟨h.grown.trans (.newTemp _), ?_, fun x hx => ?_, fun x hx => ?_⟩
  · rw [hn]
    refine ⟨by rw [Pseudo.isWordOp_mapRegs, h.inst.word], fun r hr => ?_, fun q hq => ?_,
      fun i hi => h.inst.source i (by rwa [Pseudo.source?_mapRegs] at hi),
      fun i hi => h.inst.object i (by rwa [Pseudo.object?_mapRegs] at hi)⟩
    · rw [Pseudo.regs_mapRegs, List.mem_map] at hr
      obtain ⟨u, hu, rfl⟩ := hr
      split
      · exact Nat.lt_succ_self _
      · exact (h.inst.below u hu).mono (Nat.le_succ _)
    · rw [Pseudo.regs_mapRegs, List.mem_map] at hq
      obtain ⟨u, hu, he⟩ := hq
      split at he
      · cases he
      · exact h.inst.args q (he ▸ hu)
  · rw [hn]
    rcases List.mem_append.mp hx with hx | hx
    · exact fits_succ (h.before x hx)
    · rw [List.mem_singleton.mp hx]
      exact fits_load hs _
  · rw [hn]
    exact fits_succ (h.after x hx)

private theorem Tidy.write (h : Tidy objects f sp) (hc : s.cls = .gpr)
    (hs : objects[s.index]? = some (.local wordSize wordSize)) : Tidy objects f (sp.store s) := by
  have hn := numVRegs_newTemp sp.routine .gpr
  rw [write_eq hc]
  refine ⟨h.grown.trans (.newTemp _), ?_, fun x hx => ?_, fun x hx => ?_⟩
  · rw [hn]
    refine ⟨by rw [Pseudo.isWordOp_withDst, h.inst.word], fun r hr => ?_, fun q hq => ?_,
      fun i hi => h.inst.source i (by rwa [Pseudo.source?_withDst] at hi),
      fun i hi => h.inst.object i (by rwa [Pseudo.object?_withDst] at hi)⟩
    · rcases Pseudo.mem_regs_withDst hr with rfl | hr
      · exact Nat.lt_succ_self _
      · exact (h.inst.below r hr).mono (Nat.le_succ _)
    · rcases Pseudo.mem_regs_withDst hq with he | hq
      · cases he
      · exact h.inst.args q hq
  · rw [hn]
    exact fits_succ (h.before x hx)
  · rw [hn]
    rcases List.mem_append.mp hx with hx | hx
    · exact fits_succ (h.after x hx)
    · rw [List.mem_singleton.mp hx]
      exact fits_store hs _

private theorem Tidy.step (h : Tidy objects f sp) (m : Pseudo) (hc : s.cls = .gpr)
    (hs : objects[s.index]? = some (.local wordSize wordSize)) : Tidy objects f (sp.pass m s) := by
  simp only [Spilled.pass]
  split <;> split
  · exact (h.read hc hs).write hc hs
  · exact h.write hc hs
  · exact h.read hc hs
  · exact h

theorem patchInst_fits {slots : List SpillSlot}
    (hs : ∀ s ∈ slots, s.cls = .gpr ∧ objects[s.index]? = some (.local wordSize wordSize))
    (hm : m.Fits objects f.numVRegs) :
    Grown f (patchInst slots f m).2 ∧
      ∀ x ∈ (patchInst slots f m).1, x.Fits objects (patchInst slots f m).2.numVRegs := by
  have htidy (sp : Spilled) (h : Tidy objects f sp) : Tidy objects f (slots.foldl (Spilled.pass m) sp) := by
    induction slots generalizing sp with
    | nil => exact h
    | cons s rest ih =>
      obtain ⟨hc, ho⟩ := hs s (by simp)
      exact ih (fun t ht => hs t (by simp [ht])) _ (h.step m hc ho)
  have h := htidy ⟨f, [], m, []⟩ ⟨.refl f, hm, by simp, by simp⟩
  refine ⟨h.grown, fun x hx => ?_⟩
  rcases List.mem_append.mp hx with hx | hx
  · exact h.before x hx
  · rcases List.mem_cons.mp hx with rfl | hx
    · exact h.inst
    · exact h.after x hx

end Fits

section Block

variable {n : Nat} {objects more : List FrameObject} {slots : List SpillSlot} {f : Routine}

private theorem patchInst_ret (slots : List SpillSlot) (f : Routine) (rs : List Register) :
    patchInst slots f (.ret rs) = ([.ret rs], f) := by
  have hstep (sp : Spilled) (s : SpillSlot) : Spilled.pass (.ret rs) sp s = sp := by
    simp [Spilled.pass, Pseudo.uses, Pseudo.defs, Pseudo.dst?]
  have hfold (sp : Spilled) : slots.foldl (Spilled.pass (.ret rs)) sp = sp := by
    induction slots with
    | nil => rfl
    | cons s rest ih => rw [List.foldl_cons, hstep, ih]
  rw [patchInst, hfold]
  rfl

/-- A block with spill code computes what it did before, and keeps its return. -/
theorem patchBlock_spec (ha : Apart n objects.length slots)
    (hs : ∀ s ∈ slots, (objects ++ more)[s.index]? = some (.local wordSize wordSize)) (hn : n ≤ f.numVRegs)
    {ms : List Pseudo} (hms : ∀ m ∈ ms, m.Fits objects n) (rs : List Register) :
    ∃ ms' g, patchBlock slots f (ms ++ [.ret rs]) = (ms' ++ [.ret rs], g) ∧ Grown f g ∧
      (∀ m ∈ ms', m.Fits (objects ++ more) g.numVRegs) ∧
      ∀ st st', Spread n objects.length slots st st' →
        Option.Rel (Spread n objects.length slots) (Pseudo.evalAll st ms) (Pseudo.evalAll st' ms') := by
  induction ms generalizing f with
  | nil =>
    refine ⟨[], f, ?_, .refl f, by simp, fun st st' h => .some h⟩
    simp [patchBlock, patchInst_ret]
  | cons m ms ih =>
    have hm := hms m (by simp)
    have hslots : ∀ s ∈ slots, s.cls = .gpr ∧ (objects ++ more)[s.index]? = some (.local wordSize wordSize) :=
      fun s hs' => ⟨(ha.slot s hs').2.2, hs s hs'⟩
    obtain ⟨hgrown, hfits⟩ := patchInst_fits hslots (hm.mono hn)
    obtain ⟨ms', g, hblock, hgrown', hfits', heval⟩ := ih (Nat.le_trans hn hgrown.numVRegs_le)
      fun x hx => hms x (by simp [hx])
    have hlt {i : Nat} {o : FrameObject} (h : objects[i]? = some o) : i < objects.length :=
      (List.getElem?_eq_some_iff.mp h).1
    refine ⟨(patchInst slots f m).1 ++ ms', g, ?_, hgrown.trans hgrown', fun x hx => ?_, fun st st' h => ?_⟩
    · simp only [List.cons_append, patchBlock, hblock, List.append_assoc]
    · rcases List.mem_append.mp hx with hx | hx
      · have hx' : x.Fits ((objects ++ more) ++ []) g.numVRegs := (hfits x hx).mono hgrown'.numVRegs_le
        rwa [List.append_nil] at hx'
      · exact hfits' x hx
    · rw [Pseudo.evalAll_append, Pseudo.evalAll_cons]
      refine rel_bind (patchInst_eval ha hn hm.word hm.below (fun i hi => ?_) (fun i hi => ?_) h)
        fun s s' hss => heval s s' hss
      · obtain ⟨o, ho, -⟩ := hm.source i hi
        exact hlt ho
      · obtain ⟨align, ho⟩ := hm.object i hi
        exact hlt ho

end Block

end DirectPage.Allocation
