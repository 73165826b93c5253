import DirectPage.Proofs.IntegerCode
import DirectPage.Proofs.Rounds
import DirectPage.Proofs.SelectCode

/-! The instructions of a block of word operations compute what the operations do, with registers in the direct page
and frame objects on the stack. -/
namespace DirectPage.Expansion

open Machine

def blockActions (frame : Frame) (folding : Bool) (b : Nat) : Stream → List Pseudo → Checked (List Action)
  | _, [] => .ok []
  | s, m :: rest => do
    let as ← actions frame folding b s m
    return as ++ (← blockActions frame folding b (s.acts as) rest)

section Block

variable {frame : Frame} {folding : Bool} {b : Nat} {s : Stream} {ops ops' : List Pseudo} {as : List Action}

theorem foldlM_expandInst :
    ops.foldlM (expandInst frame folding b) s = s.acts <$> blockActions frame folding b s ops := by
  induction ops generalizing s with
  | nil => rfl
  | cons m ops ih =>
    rw [List.foldlM_cons, expandInst_eq, blockActions]
    rcases actions frame folding b s m with e | as
    · rfl
    · change ops.foldlM _ (s.acts as) = _
      rw [ih, ok_bind]
      rcases blockActions frame folding b (s.acts as) ops with e | rest
      · rfl
      · exact congrArg Except.ok (s.acts_append as rest).symm

theorem blockActions_append (s : Stream) (ops ops' : List Pseudo) : blockActions frame folding b s (ops ++ ops') = do
    let as ← blockActions frame folding b s ops
    return as ++ (← blockActions frame folding b (s.acts as) ops') := by
  induction ops generalizing s with
  | nil => exact (bind_pure _).symm
  | cons m ops ih =>
    simp only [List.cons_append, blockActions, ih, bind_assoc, pure_bind, Stream.acts_append, List.append_assoc]

theorem blockActions_append_ok (h : blockActions frame folding b s (ops ++ ops') = .ok as) :
    ∃ as1 as2, blockActions frame folding b s ops = .ok as1 ∧
      blockActions frame folding b (s.acts as1) ops' = .ok as2 ∧ as = as1 ++ as2 := by
  rw [blockActions_append] at h
  obtain ⟨as1, has1, h⟩ := bind_eq_ok.mp h
  obtain ⟨as2, has2, h⟩ := bind_eq_ok.mp h
  exact ⟨as1, as2, has1, has2, (Except.ok.inj h).symm⟩

def isLinear : Pseudo → Bool
  | .brCc .. | .jump _ => false
  | _ => true

theorem admits_actions {m : Pseudo} (hm : isLinear m = true) (h : actions frame folding b s m = .ok as) :
    s.Admits as := by
  have hcode (h : (do return (← code s frame m).map .emit : Checked (List Action)) = .ok as) : s.Admits as := by
    obtain ⟨is, -, h1⟩ := bind_eq_ok.mp h
    cases h1
    exact Stream.admits_emit is
  cases m with
  | selectCc cmp dst onTrue onFalse => exact admits_selectActions h
  | brCc | jump => cases hm
  | _ => exact hcode h

theorem admits_blockActions (hops : ∀ m ∈ ops, isLinear m = true) (h : blockActions frame folding b s ops = .ok as) :
    s.Admits as := by
  induction ops generalizing s as with
  | nil =>
    cases h
    trivial
  | cons m ops ih =>
    obtain ⟨first, hfirst, h1⟩ := bind_eq_ok.mp h
    obtain ⟨rest, hrest, h2⟩ := bind_eq_ok.mp h1
    cases h2
    exact Stream.admits_append.mpr ⟨admits_actions (hops m List.mem_cons_self) hfirst,
      ih (fun m hm => hops m (List.mem_cons_of_mem _ hm)) hrest⟩

theorem guarded_blockActions (hw : s.WellFormed) (hg : s.Guarded) (h : blockActions frame folding b s ops = .ok as) :
    (s.acts as).Guarded := by
  induction ops generalizing s as with
  | nil =>
    cases h
    exact hg
  | cons m ops ih =>
    obtain ⟨first, hfirst, h1⟩ := bind_eq_ok.mp h
    obtain ⟨rest, hrest, h2⟩ := bind_eq_ok.mp h1
    cases h2
    rw [Stream.acts_append]
    exact ih (hw.acts first) (hg.acts hw false first (by simp) (guards_actions hfirst)) hrest

end Block

structure Homes (frame : Frame) (objects : List FrameObject) (sp : Word) (limit : Nat) (home : Nat → Nat) : Prop where
  page : 256 ≤ sp.toNat
  free : sp.toNat + 4 ≤ limit
  size : limit ≤ memorySize
  resolve : ∀ (i : Nat) o, objects[i]? = some o → o.isWord = true → ∀ r, frame.resolve i 0#32 = .ok r →
    ∃ total, r = (.sp, total) ∧ (sp + total).toNat = home i
  above : ∀ (i : Nat) o, objects[i]? = some o → o.isWord = true → sp.toNat + 4 ≤ home i ∧ home i + 4 ≤ memorySize
  below : ∀ (i : Nat) align, objects[i]? = some (.local wordSize align) → home i + 4 ≤ limit
  apart : ∀ (i : Nat) align (j : Nat) o, objects[i]? = some (.local wordSize align) → objects[j]? = some o →
    o.isWord = true → j ≠ i → home j + 4 ≤ home i ∨ home i + 4 ≤ home j

structure Models (objects : List FrameObject) (sp : Word) (home : Nat → Nat) (st : Store) (m : Machine) : Prop where
  sp : m.sp = sp
  regs : ∀ n < 64, m.regs (.general n) = st.regs (.general n)
  objects : ∀ (i : Nat) o, objects[i]? = some o → o.isWord = true → m.memory.word (home i) = st.objects i

def Keeps (limit : Nat) (m m' : Machine) : Prop :=
  ∀ a, limit ≤ a → a + 4 ≤ memorySize → m'.memory.word a = m.memory.word a

inductive Computes (R : Store → Machine → Prop) : Option Store → Checked (Option Nat × Machine) → Prop
  | ok {st : Store} {m : Machine} : R st m → Computes R (some st) (.ok (none, m))
  | fault : Computes R none (fault .divisionByZero)

variable {base : MemBase} {width : Width} {offset : Word}

private theorem load_of_isWordOp {dst : Reg} {ext : Ir.Extension}
    (h : (Pseudo.load dst width ext base offset).isWordOp = true) :
    width = .word ∧ ext = .zero ∧ ∃ i, base = .frame i ∧ offset = 0#32 := by
  cases width <;> cases ext <;> cases base <;> simp_all [Pseudo.isWordOp]

private theorem store_of_isWordOp {src : Reg} (h : (Pseudo.store src width base offset).isWordOp = true) :
    width = .word ∧ ∃ i, base = .frame i ∧ offset = 0#32 := by
  cases width <;> cases base <;> simp_all [Pseudo.isWordOp]

section Models

variable {frame : Frame} {objects : List FrameObject} {sp : Word} {limit : Nat} {home : Nat → Nat}
  (hh : Homes frame objects sp limit home) {st : Store} {m m' : Machine} (hm : Models objects sp home st m) {w : Word}
include hh hm

private theorem Models.set {d : UInt8} (hd : d < 64) (hs : m.Sets (4 * d.toNat) w m') :
    Models objects sp home (st.set (.general d) w) m' ∧ Keeps limit m m' := by
  have hd' : d.toNat < 64 := hd
  have hpage := hh.page
  have hfree := hh.free
  refine ⟨⟨hs.sp.trans hm.sp, fun n hn => ?_, fun i o hi ho => ?_⟩, fun a ha hle => hs.others a hle (by omega)⟩
  · by_cases hnd : n = d
    · rw [hnd, Store.regs_set_self]
      exact hs.value
    · have hn' : n.toNat < 64 := hn
      have hne : n.toNat ≠ d.toNat := fun he => hnd (UInt8.toNat_inj.mp he)
      rw [Store.regs_set_ne _ (by simpa using hnd), ← hm.regs n hn]
      exact hs.others _ (by rw [memorySize]; omega) (by omega)
  · obtain ⟨habove, hle⟩ := hh.above i o hi ho
    rw [Store.objects_set, ← hm.objects i o hi ho]
    exact hs.others _ hle (by omega)

private theorem Models.put {i align : Nat} (hi : objects[i]? = some (.local wordSize align))
    (hs : m.Stores (home i) w m') : Models objects sp home (st.put i w) m' ∧ Keeps limit m m' := by
  have hpage := hh.page
  have hfree := hh.free
  have hbelow := hh.below i align hi
  obtain ⟨habove, -⟩ := hh.above i _ hi rfl
  have hsp := hm.sp
  refine ⟨⟨hs.sp.trans hsp, fun n hn => ?_, fun j o hj ho => ?_⟩,
    fun a ha hle => hs.others a hle (by omega) (by rw [hsp]; omega)⟩
  · have hn' : n.toNat < 64 := hn
    rw [Store.regs_put, ← hm.regs n hn]
    exact hs.others _ (by rw [memorySize]; omega) (by omega) (by rw [hsp]; omega)
  · by_cases hji : j = i
    · rw [hji, Store.objects_put_self]
      exact hs.value
    · obtain ⟨habove', hle⟩ := hh.above j o hj ho
      rw [Store.objects_put_ne _ hji, ← hm.objects j o hj ho]
      exact hs.others _ hle (hh.apart i align j o hi hj ho hji) (by rw [hsp]; omega)

/-- The code of a word operation computes what the operation does. -/
theorem actions_compute {folding : Bool} {b : Nat} {s : Stream} {p : Pseudo} {as : List Action}
    (hp : Allocation.Placed objects p) (h : actions frame folding b s p = .ok as) :
    Computes (fun st' m' => Models objects sp home st' m' ∧ Keeps limit m m') (p.eval st)
      (Action.run (none, m) as) := by
  have hgeneral {r : Reg} (hr : r ∈ p.regs) : ∃ n < 64, r = .general n := by
    obtain ⟨q, rfl, n, rfl, hn, -⟩ := hp.usable r hr
    exact ⟨n, hn, rfl⟩
  -- The operation reads what memory holds for it.
  have hview : p.result st = p.result ⟨m.regs, fun i => m.memory.word (home i)⟩ := by
    refine Pseudo.result_congr hp.word (fun u hu => ?_) fun i hi => ?_
    · obtain ⟨n, hn, rfl⟩ := hgeneral (Pseudo.mem_regs_of_mem_uses hp.word hu)
      exact (hm.regs n hn).symm
    · obtain ⟨o, hio, ho⟩ := hp.source i hi
      exact (hm.objects i o hio ho).symm
  have hset {d : UInt8} {w : Word} (hd : d < 64) (ho : p.object? = none) (hdst : p.dst? = some (.general d))
      (hres : p.result ⟨m.regs, fun i => m.memory.word (home i)⟩ = some w)
      (hruns : m.Runs as (m.Sets (4 * d.toNat) w)) :
      Computes (fun st' m' => Models objects sp home st' m' ∧ Keeps limit m m') (p.eval st)
        (Action.run (none, m) as) := by
    obtain ⟨m', hrun, hs⟩ := hruns
    rw [hrun, Pseudo.eval, hview, hres, Option.map_some, Pseudo.commit, ho, hdst]
    exact .ok (hm.set hh hd hs)
  have hresolve {i : Nat} {o : FrameObject} (hi : objects[i]? = some o) (ho : o.isWord = true) {α : Type}
      {f : SlotBase × Word → Checked α} {a : α} (hok : frame.resolve i 0#32 >>= f = .ok a) :
      ∃ total, frame.resolve i 0#32 = .ok (.sp, total) ∧ (m.sp + total).toNat = home i := by
    obtain ⟨r, hr, -⟩ := bind_eq_ok.mp hok
    obtain ⟨total, rfl, hhome⟩ := hh.resolve i o hi ho r hr
    exact ⟨total, hr, by rw [hm.sp, hhome]⟩
  have hword := hp.word
  by_cases hint : p.isInteger = true
  · obtain ⟨d, hd, hdst, c, hcode, is, rfl, hdoes⟩ := code_implements hint fun _ hr => hgeneral hr
    have hactions : actions frame folding b s p = do return (← code s frame p).map .emit := by
      cases p <;> first | rfl | cases hint
    have ho : p.object? = none := by cases p <;> first | rfl | cases hint
    rw [hactions, hcode] at h
    cases h
    have hone := hdoes m
    dsimp only at hone
    rw [Pseudo.value?_eq_result hint fun i => m.memory.word (home i)] at hone
    split at hone
    · next w hw => exact hset hd ho hdst hw (hone.runs.mono fun _ => Yields.sets)
    · next hw =>
      rw [Pseudo.eval, hview, hw, Action.run_emit, hone]
      exact .fault
  cases p with
  | selectCc cmp dst onTrue onFalse =>
    cases cmp with
    | float => cases hword
    | int cc lhs rhs =>
      obtain ⟨d, hd, rfl⟩ := hgeneral (r := dst) (by simp [Pseudo.regs])
      obtain ⟨t, ht, rfl⟩ := hgeneral (r := onTrue) (by simp [Pseudo.regs])
      obtain ⟨f, hf, rfl⟩ := hgeneral (r := onFalse) (by simp [Pseudo.regs])
      obtain ⟨l, hl, rfl⟩ := hgeneral (r := lhs) (by cases rhs <;> simp [Pseudo.regs, Compare.regs])
      have hr : ∀ r, rhs = .reg r → ∃ n < 64, r = .general n := by
        rintro r rfl
        exact hgeneral (by simp [Pseudo.regs, Compare.regs])
      obtain ⟨as', has, -, hruns⟩ := selectActions_runs cc hd ht hf hl hr s.labels.length
      cases has.symm.trans h
      exact hset hd rfl rfl rfl ((hruns m).mono fun _ hputs => hputs.yields.sets)
  | load dst width ext base offset =>
    obtain ⟨d, hd, rfl⟩ := hgeneral (r := dst) (by simp [Pseudo.regs])
    obtain ⟨is, hcode, has⟩ := bind_eq_ok.mp h
    cases has
    obtain ⟨rfl, rfl, i, rfl, rfl⟩ := load_of_isWordOp hword
    change load frame (.general d) .word .zero (.frame i) 0#32 = _ at hcode
    obtain ⟨o, hio, ho⟩ := hp.source i rfl
    obtain ⟨_, _, hrest⟩ := bind_eq_ok.mp hcode
    obtain ⟨place, hplace, -⟩ := bind_eq_ok.mp hrest
    obtain ⟨total, hr, hhome⟩ := hresolve hio ho hplace
    have hdoes := load_does hd hr hcode (m := m) (hhome ▸ (hh.above i o hio ho).2)
    rw [hhome] at hdoes
    exact hset hd rfl rfl rfl hdoes.runs
  | store src width base offset =>
    obtain ⟨l, hl, rfl⟩ := hgeneral (r := src) (by simp [Pseudo.regs])
    obtain ⟨is, hcode, has⟩ := bind_eq_ok.mp h
    cases has
    obtain ⟨rfl, i, rfl, rfl⟩ := store_of_isWordOp hword
    obtain ⟨align, hio⟩ := hp.object i rfl
    obtain ⟨_, _, hrest⟩ := bind_eq_ok.mp hcode
    obtain ⟨place, hplace, -⟩ := bind_eq_ok.mp hrest
    obtain ⟨total, hr, hhome⟩ := hresolve hio rfl hplace
    have hfree := hh.free
    have hsize := hh.size
    obtain ⟨m', hrun, hs⟩ := (store_does hl hr hcode (m := m) (by rw [hm.sp]; omega)
      (hhome ▸ (hh.above i _ hio rfl).2)).runs
    rw [hhome] at hs
    rw [hrun, Pseudo.eval, hview]
    exact .ok (hm.put hh hio hs)
  | _ => first | exact absurd rfl hint | cases hword

end Models

theorem blockActions_compute {frame : Frame} {objects : List FrameObject} {sp : Word} {limit : Nat} {home : Nat → Nat}
    (hh : Homes frame objects sp limit home) {folding : Bool} {b : Nat} {ops : List Pseudo}
    (hops : ∀ p ∈ ops, Allocation.Placed objects p) {s : Stream} {as : List Action}
    (h : blockActions frame folding b s ops = .ok as) {st : Store} {m : Machine} (hm : Models objects sp home st m) :
    Computes (fun st' m' => Models objects sp home st' m' ∧ Keeps limit m m') (Pseudo.evalAll st ops)
      (Action.run (none, m) as) := by
  induction ops generalizing s as st m with
  | nil =>
    cases h
    exact .ok ⟨hm, fun _ _ _ => rfl⟩
  | cons p ops ih =>
    obtain ⟨first, hfirst, h1⟩ := bind_eq_ok.mp h
    obtain ⟨rest, hrest, h2⟩ := bind_eq_ok.mp h1
    cases h2
    have hone := actions_compute hh hm (hops p List.mem_cons_self) hfirst
    rw [Pseudo.evalAll_cons, Action.run_append]
    generalize p.eval st = evaluated at hone
    generalize Action.run (none, m) first = ran at hone
    cases hone with
    | fault => exact .fault
    | @ok st1 m1 hone =>
      have hall := ih (fun p hp => hops p (List.mem_cons_of_mem _ hp)) hrest hone.1
      rw [Option.bind_some, ok_bind]
      generalize Pseudo.evalAll st1 ops = evaluated at hall
      generalize Action.run (none, m1) rest = ran at hall
      cases hall with
      | fault => exact .fault
      | ok hall => exact .ok ⟨hall.1, fun a ha hle => (hall.2 a ha hle).trans (hone.2 a ha hle)⟩

end DirectPage.Expansion
