import DirectPage.Proofs.LinearScan
import DirectPage.Proofs.SpillCode

/-! Spill code keeps the flow of data: on every way through the function, an operation that read a
spilled register reads a temporary loaded from its frame object, and what was stored there last is
the result of the operation that wrote the register last. -/
namespace DirectPage

def Pseudo.isLoad : Pseudo → Bool
  | load .. | fload .. => true
  | _ => false

namespace Allocation

/-! Runs are lists of operations in the order of execution, so their operations are told apart by
number. -/

def WrittenLast (run : List Pseudo) (r : Reg) (n : Nat) : Prop :=
  (∃ m, run[n]? = some m ∧ r ∈ m.defs) ∧ ∀ i m, n < i → run[i]? = some m → r ∉ m.defs

/-- Before operation `n` of a run, the register holds an address within frame object `i`, or what was
computed from one. -/
inductive PointsInto (run : List Pseudo) (i : Nat) : Nat → Reg → Prop
  | address {n w : Nat} {r : Reg} {offset : Word} : WrittenLast (run.take n) r w →
      run[w]? = some (.frameAddr r i offset) → PointsInto run i n r
  | computed {n w : Nat} {r u : Reg} {m : Pseudo} : WrittenLast (run.take n) r w → run[w]? = some m →
      m.isLoad = false → u ∈ m.uses → PointsInto run i w u → PointsInto run i n r

/-- Operation `n` of a run stores into frame object `i`, by name or through a register. -/
inductive StoresInto (run : List Pseudo) (i n : Nat) : Prop
  | object {src : Reg} {width : Width} {offset : Word} :
      run[n]? = some (.store src width (.frame i) offset) → StoresInto run i n
  | pointer {src a : Reg} {width : Width} {offset : Word} :
      run[n]? = some (.store src width (.reg a) offset) → PointsInto run i n a → StoresInto run i n
  | float {src a : Reg} {prec : Precision} :
      run[n]? = some (.fstore src prec (.reg a)) → PointsInto run i n a → StoresInto run i n

def AddressOf (run : List Pseudo) (i n : Nat) (a : Reg) : Prop :=
  ∃ w, WrittenLast (run.take n) a w ∧ run[w]? = some (.frameAddr a i 0#32)

inductive LoadsSlot (run : List Pseudo) (s : SpillSlot) (n : Nat) (dst : Reg) : Prop
  | word : s.cls ≠ .fpr → run[n]? = some (.load dst .word .zero (.frame s.index) 0#32) → LoadsSlot run s n dst
  | double {a : Reg} : s.cls = .fpr → run[n]? = some (.fload dst .double (.reg a)) → AddressOf run s.index n a →
      LoadsSlot run s n dst

inductive SavesSlot (run : List Pseudo) (s : SpillSlot) (n : Nat) (src : Reg) : Prop
  | word : s.cls ≠ .fpr → run[n]? = some (.store src .word (.frame s.index) 0#32) → SavesSlot run s n src
  | double {a : Reg} : s.cls = .fpr → run[n]? = some (.fstore src .double (.reg a)) → AddressOf run s.index n a →
      SavesSlot run s n src

/-- The register was loaded last from the slot, by an operation from number `first` on. -/
def Reloaded (run : List Pseudo) (first : Nat) (s : SpillSlot) (t : Reg) : Prop :=
  ∃ n, first ≤ n ∧ LoadsSlot run s n t ∧ WrittenLast run t n

/-- The last store into the slot is between operations `w` and `stop`, and stores what `w` wrote. -/
def StoredLast (run : List Pseudo) (s : SpillSlot) (w stop : Nat) : Prop :=
  ∃ n src, w < n ∧ n < stop ∧ SavesSlot run s n src ∧ WrittenLast (run.take n) src w ∧
    ∀ j, n < j → ¬ StoresInto run s.index j

section Runs

variable {run : List Pseudo} {r : Reg} {n : Nat}

theorem writtenLast_of_eq (pre : List Pseudo) (m : Pseudo) (post : List Pseudo) (h : run = pre ++ m :: post)
    (hn : n = pre.length) (hm : r ∈ m.defs) (hpost : ∀ x ∈ post, r ∉ x.defs) : WrittenLast run r n := by
  subst h hn
  refine ⟨⟨m, by simp, hm⟩, fun i x hi hx => hpost x ?_⟩
  rw [List.getElem?_append_right (Nat.le_of_lt hi), show i - pre.length = (i - pre.length - 1) + 1 by omega,
    List.getElem?_cons_succ] at hx
  exact List.mem_of_getElem? hx

/-- The operation behind one that takes the address of a frame object finds it in the register. -/
theorem addressOf_next {pre post : List Pseudo} {a : Reg} {i : Nat} (h : run = pre ++ .frameAddr a i 0#32 :: post)
    (hn : n = pre.length + 1) : AddressOf run i n a := by
  refine ⟨pre.length, writtenLast_of_eq pre (.frameAddr a i 0#32) [] ?_ rfl ?_ (by simp), ?_⟩
  · rw [h, hn, List.append_cons]
    exact List.take_left' (by simp)
  · simp [Pseudo.defs, Pseudo.dst?]
  · simp [h]

end Runs

namespace Carrier

theorem load_eq (c : Carrier) :
    (c.slot.cls ≠ .fpr ∧ c.load = [.load (.virt c.temp) .word .zero (.frame c.slot.index) 0#32]) ∨
    c.slot.cls = .fpr ∧ c.load =
      [.frameAddr (.virt (c.temp + 1)) c.slot.index 0#32,
        .fload (.virt c.temp) .double (.reg (.virt (c.temp + 1)))] := by
  rw [load]
  cases hc : c.slot.cls <;> simp

theorem save_eq (c : Carrier) :
    (c.slot.cls ≠ .fpr ∧ c.save = [.store (.virt c.temp) .word (.frame c.slot.index) 0#32]) ∨
    c.slot.cls = .fpr ∧ c.save =
      [.frameAddr (.virt (c.temp + 1)) c.slot.index 0#32,
        .fstore (.virt c.temp) .double (.reg (.virt (c.temp + 1)))] := by
  rw [save]
  cases hc : c.slot.cls <;> simp

end Carrier

/-- Every virtual register that the operation reads has a number below `n`, and every frame object
that it names one below `bound`. -/
structure Closed (n bound : Nat) (m : Pseudo) : Prop where
  reads : ∀ v, .virt v ∈ m.uses → v < n
  objects : ∀ i, m.frameRef? = some i → i < bound

namespace Patch

theorem mem_code {p : Patch} {m : Pseudo} (h : m ∈ p.piece.code) :
    (∃ c ∈ p.loads, m ∈ c.load) ∨ m = p.piece.inst ∨ ∃ c ∈ p.saves, m ∈ c.save := by
  simpa [Piece.code, piece] using h

variable {slots : List SpillSlot} {n hi bound : Nat} {ps : List Patch} {p : Patch} {s : SpillSlot}

theorem uses_inst (p : Patch) : p.piece.inst.uses = p.op.uses.map (Carrier.swap p.loads) :=
  Pseudo.uses_rename (Carrier.swap_phys _) _ _

theorem defs_inst (p : Patch) : p.piece.inst.defs = p.op.defs.map (Carrier.swap p.saves) :=
  Pseudo.defs_rename (Carrier.swap_phys _) _ _

theorem frameRef?_inst (p : Patch) : p.piece.inst.frameRef? = p.op.frameRef? := Pseudo.frameRef?_rename _ _ _

/-- A spilled register that is read is carried in a new temporary. -/
theorem Covers.exists_load (hc : p.Covers slots) (hs : Distinct n slots) (hmem : s ∈ slots)
    (hu : .virt s.vreg ∈ p.op.uses) :
    ∃ c ∈ p.loads, c.slot = s ∧ Carrier.swap p.loads (.virt s.vreg) = .virt c.temp := by
  rcases Carrier.swap_cases p.loads (.virt s.vreg) with ⟨-, hnone⟩ | ⟨c, hmem', hv, ht⟩
  · obtain ⟨c, hc', rfl⟩ := (hc.loads.mem s).mpr ⟨hmem, hu⟩
    exact absurd rfl (hnone c hc')
  · exact ⟨c, hmem', hs.eq_of_vreg (hc.loads.slot_mem hmem').1 hmem (Reg.virt.inj hv).symm, ht⟩

/-- The one register that is stored is the result. -/
theorem Covers.saves_eq (hc : p.Covers slots) (hs : Distinct n slots) (hmem : s ∈ slots)
    (hw : .virt s.vreg ∈ p.op.defs) : ∃ c : Carrier, p.saves = [c] ∧ c.slot = s := by
  have hdst := Pseudo.virt_mem_defs.mp hw
  have hall {c : Carrier} (hc' : c ∈ p.saves) : c.slot = s := by
    obtain ⟨hslot, hdef⟩ := hc.saves.slot_mem hc'
    rw [Pseudo.virt_mem_defs, hdst] at hdef
    exact hs.eq_of_vreg hslot hmem (Reg.virt.inj (Option.some.inj hdef)).symm
  obtain ⟨c, hc', -⟩ := (hc.saves.mem s).mpr ⟨hmem, hw⟩
  have honce := hc.saves.once
  cases hsaves : p.saves with
  | nil =>
    rw [hsaves] at hc'
    cases hc'
  | cons d rest =>
    rw [hsaves] at hall honce
    cases rest with
    | nil => exact ⟨d, rfl, hall (by simp)⟩
    | cons e rest =>
      refine absurd ?_ ((List.pairwise_cons.mp honce).1 e (by simp))
      rw [hall (c := d) (by simp), hall (c := e) (by simp)]

end Patch

section Flow

variable {slots : List SpillSlot} {n hi bound : Nat} {all : List Patch} {p : Patch} {s : SpillSlot} {run : List Pseudo}
  {j i : Nat} {m : Pseudo}

/-- The code before an operation loads the spilled registers that it reads. -/
theorem reloaded (hs : Distinct n slots) (hf : p.Fresh n hi) (hc : p.Covers slots) (hmem : s ∈ slots)
    (hu : .virt s.vreg ∈ p.op.uses) (pre : List Pseudo) :
    ∃ t, n ≤ t ∧ Carrier.swap p.loads (.virt s.vreg) = .virt t ∧
      Reloaded (pre ++ p.piece.before) pre.length s (.virt t) := by
  obtain ⟨c, hload, rfl, hswap⟩ := hc.exists_load hs hmem hu
  refine ⟨c.temp, (hf.within c (List.mem_append_left _ hload)).1, hswap, ?_⟩
  obtain ⟨first, rest, hsplit⟩ := List.append_of_mem hload
  have hapart := (List.pairwise_append.mp hf.apart).1
  rw [hsplit] at hapart
  have hrest : ∀ x ∈ rest.flatMap Carrier.load, .virt c.temp ∉ x.defs := fun x hx hdef => by
    obtain ⟨d, hd, hx⟩ := List.mem_flatMap.mp hx
    have hd' := (List.pairwise_cons.mp (List.pairwise_append.mp hapart).2.1).1 d hd
    have := (d.temp_of_mem_regs (.inl hx)).2 _ (Pseudo.virt_mem_regs.mpr (.inr hdef))
    have hpos := c.width_pos
    rcases hd' with hd' | hd' <;> omega
  have hbefore : p.piece.before = first.flatMap Carrier.load ++ (c.load ++ rest.flatMap Carrier.load) := by
    rw [Patch.piece, hsplit, List.flatMap_append, List.flatMap_cons]
  rw [hbefore, ← List.append_assoc]
  generalize hpre : pre ++ first.flatMap Carrier.load = pre'
  have hlen : pre.length ≤ pre'.length := by
    rw [← hpre, List.length_append]
    omega
  rcases c.load_eq with ⟨hcls, hcode⟩ | ⟨hcls, hcode⟩
  · rw [hcode]
    exact ⟨pre'.length, hlen, .word hcls (by simp),
      writtenLast_of_eq _ _ _ rfl rfl (by simp [Pseudo.defs, Pseudo.dst?]) hrest⟩
  · rw [hcode, List.cons_append, List.cons_append, List.nil_append]
    refine ⟨pre'.length + 1, by omega, .double hcls (by simp) (addressOf_next rfl rfl), ?_⟩
    exact writtenLast_of_eq _ _ _ (List.append_cons ..) (by simp) (by simp [Pseudo.defs, Pseudo.dst?]) hrest

/-- The code behind an operation stores the spilled register that it writes. -/
theorem saved (hs : Distinct n slots) (hc : p.Covers slots) (hmem : s ∈ slots)
    (hw : .virt s.vreg ∈ p.op.defs) (pre post : List Pseudo) :
    ∃ k src, k + 1 = pre.length + p.piece.code.length ∧ pre.length + p.piece.before.length < k ∧
      SavesSlot (pre ++ (p.piece.code ++ post)) s k src ∧
      WrittenLast ((pre ++ (p.piece.code ++ post)).take k) src (pre.length + p.piece.before.length) := by
  obtain ⟨c, hsaves, rfl⟩ := hc.saves_eq hs hmem hw
  have hafter : p.piece.after = c.save := by simp [Patch.piece, hsaves]
  have hdef : .virt c.temp ∈ p.piece.inst.defs := by
    rw [Patch.defs_inst, List.mem_map, hsaves]
    exact ⟨_, hw, show Carrier.swap ([] ++ [c]) _ = _ from Carrier.swap_append_self (by simp)⟩
  have hrun : pre ++ (p.piece.code ++ post) = (pre ++ p.piece.before) ++ p.piece.inst :: (c.save ++ post) := by
    simp [Piece.code, hafter]
  have hlen : p.piece.code.length = p.piece.before.length + 1 + c.save.length := by
    rw [Piece.code, hafter, List.length_append, List.length_cons]
    omega
  rw [hrun, hlen, ← Nat.add_assoc, ← Nat.add_assoc, ← List.length_append]
  generalize pre ++ p.piece.before = front
  rcases c.save_eq with ⟨hcls, hcode⟩ | ⟨hcls, hcode⟩ <;> rw [hcode]
  · refine ⟨front.length + 1, .virt c.temp, rfl, by omega, .word hcls (by simp), ?_⟩
    exact writtenLast_of_eq _ _ [] (by rw [List.take_length_add_append]; rfl) rfl hdef (by simp)
  · refine ⟨front.length + 2, .virt c.temp, rfl, by omega, .double hcls (by simp)
      (addressOf_next (List.append_cons ..) (by simp)), ?_⟩
    refine writtenLast_of_eq _ _ [.frameAddr (.virt (c.temp + 1)) c.slot.index 0#32] ?_ rfl hdef ?_
    · rw [List.take_length_add_append]
      rfl
    · simp [Pseudo.defs, Pseudo.dst?]

/-- No temporary that holds an address is read by an operation that was there before. -/
theorem address_not_mem_uses (hl : Laid slots n all hi) {q : Patch} (hp : p ∈ all) (hq : q ∈ all)
    (hop : Closed n bound q.op) {c : Carrier} (hc : c ∈ p.loads ++ p.saves) (hw : c.width = 2) :
    .virt (c.temp + 1) ∉ q.piece.inst.uses := by
  rw [Patch.uses_inst, List.mem_map]
  rintro ⟨u, hu, hswap⟩
  rcases Carrier.swap_cases q.loads u with ⟨he, -⟩ | ⟨d, hd, -, he⟩
  · have := hop.reads (c.temp + 1) (by rwa [← hswap, he])
    have := ((hl.mem hp).1.within c hc).1
    omega
  · have ht : d.temp = c.temp + 1 := Reg.virt.inj (he.symm.trans hswap)
    have hnot : ¬ c.Apart d := by
      rintro (h | h) <;> omega
    obtain ⟨-, rfl⟩ := hl.eq_of_not_apart hp hq hc (List.mem_append_left _ hd) hnot
    omega

/-- Only temporaries made for it hold the address of a slot. -/
theorem PointsInto.carrier (hl : Laid slots n all hi) (hrun : ∀ m ∈ run, ∃ p ∈ all, m ∈ p.piece.code)
    (hops : ∀ p ∈ all, Closed n bound p.op) {a : Reg} (hi : bound ≤ i) (h : PointsInto run i j a) :
    ∃ p ∈ all, ∃ c ∈ p.loads ++ p.saves, c.width = 2 ∧ c.slot.index = i ∧ a = .virt (c.temp + 1) := by
  induction h with
  | @address j w r offset _ hm =>
    obtain ⟨p, hp, hcode⟩ := hrun _ (List.mem_of_getElem? hm)
    rcases Patch.mem_code hcode with ⟨c, hc, hmem⟩ | hinst | ⟨c, hc, hmem⟩
    · rcases c.mem_load hmem with ⟨hw, he | he⟩ | ⟨-, he⟩
      · cases he
        exact ⟨p, hp, c, List.mem_append_left _ hc, hw, rfl, rfl⟩
      · cases he
      · cases he
    · have href := (hops p hp).objects i (by rw [← p.frameRef?_inst, ← hinst]; rfl)
      omega
    · rcases c.mem_save hmem with ⟨hw, he | he⟩ | ⟨-, he⟩
      · cases he
        exact ⟨p, hp, c, List.mem_append_right _ hc, hw, rfl, rfl⟩
      · cases he
      · cases he
  | @computed j w r u m hlast hm hload hu _ ih =>
    obtain ⟨p, hp, c, hc, hw, -, rfl⟩ := ih
    obtain ⟨q, hq, hcode⟩ := hrun m (List.mem_of_getElem? hm)
    obtain ⟨⟨m', hm', hdef⟩, -⟩ := hlast
    have hsame : m' = m := by
      rw [List.getElem?_take] at hm'
      split at hm'
      · exact Option.some.inj (hm'.symm.trans hm)
      · cases hm'
    subst hsame
    rcases Patch.mem_code hcode with ⟨d, hd, hmem⟩ | rfl | ⟨d, hd, hmem⟩
    · rcases d.mem_load hmem with ⟨-, rfl | rfl⟩ | ⟨-, rfl⟩ <;> first | cases hu | cases hload
    · exact absurd hu (address_not_mem_uses hl hp hq (hops q hq) hc hw)
    · rcases d.mem_save hmem with ⟨-, rfl | rfl⟩ | ⟨-, rfl⟩ <;> first | cases hu | cases hdef

theorem StoresInto.exists_op (h : StoresInto run i j) : ∃ m, run[j]? = some m := by
  rcases h with hj | ⟨hj, -⟩ | ⟨hj, -⟩ <;> exact ⟨_, hj⟩

/-- The code before an operation stores nothing. -/
theorem StoresInto.not_mem_before (hj : run[j]? = some m) (h : StoresInto run i j) (p : Patch) :
    m ∉ p.piece.before := by
  intro hm
  obtain ⟨c, -, hm⟩ := List.mem_flatMap.mp hm
  rcases h with hj' | ⟨hj', -⟩ | ⟨hj', -⟩ <;> cases hj.symm.trans hj' <;>
    rcases c.mem_load hm with ⟨-, he | he⟩ | ⟨-, he⟩ <;> cases he

/-- A slot is stored into only around operations that write its register. -/
theorem StoresInto.mem_defs (hl : Laid slots n all hi) (hindex : ∀ s ∈ slots, ∀ t ∈ slots, s.index = t.index → s = t)
    (hrun : ∀ m ∈ run, ∃ p ∈ all, m ∈ p.piece.code) (hops : ∀ p ∈ all, Closed n bound p.op) (hmem : s ∈ slots)
    (hb : bound ≤ s.index) (hj : run[j]? = some m) (h : StoresInto run s.index j) (hp : p ∈ all)
    (hm : m ∈ p.piece.code) : .virt s.vreg ∈ p.op.defs := by
  have hcovers := (hl.mem hp).2
  -- a carrier with this frame object stores the register
  have hdefs {c : Carrier} (hc : c ∈ p.saves) (he : c.slot.index = s.index) : .virt s.vreg ∈ p.op.defs := by
    obtain ⟨hslot, hdef⟩ := hcovers.saves.slot_mem hc
    rwa [hindex _ hslot _ hmem he] at hdef
  have hsplit : m = p.piece.inst ∨ ∃ c ∈ p.saves, m ∈ c.save := by
    rcases Patch.mem_code hm with ⟨c, hc, hload⟩ | hm
    · exact absurd (List.mem_flatMap.mpr ⟨c, hc, hload⟩) (h.not_mem_before hj p)
    · exact hm
  rcases h with @⟨src, width, offset, hj'⟩ | @⟨src, a, width, offset, hj', hpoints⟩ | @⟨src, a, prec, hj', hpoints⟩
  · cases hj.symm.trans hj'
    rcases hsplit with hinst | ⟨c, hc, hsave⟩
    · have := (hops p hp).objects s.index (by rw [← p.frameRef?_inst, ← hinst]; rfl)
      omega
    · rcases c.mem_save hsave with ⟨-, he | he⟩ | ⟨-, he⟩
      · cases he
      · cases he
      · simp only [Pseudo.store.injEq, MemBase.frame.injEq] at he
        exact hdefs hc he.2.2.1.symm
  · cases hj.symm.trans hj'
    obtain ⟨q, hq, c, hc, hw, -, rfl⟩ := hpoints.carrier hl hrun hops hb
    rcases hsplit with hinst | ⟨d, hd, hsave⟩
    · refine absurd ?_ (address_not_mem_uses hl hq hp (hops p hp) hc hw)
      rw [← hinst]
      simp [Pseudo.uses, MemBase.regs]
    · rcases d.mem_save hsave with ⟨-, he | he⟩ | ⟨-, he⟩ <;> cases he
  · cases hj.symm.trans hj'
    obtain ⟨q, hq, c, hc, hw, he, rfl⟩ := hpoints.carrier hl hrun hops hb
    rcases hsplit with hinst | ⟨d, hd, hsave⟩
    · refine absurd ?_ (address_not_mem_uses hl hq hp (hops p hp) hc hw)
      rw [← hinst]
      simp [Pseudo.uses, FMemBase.regs]
    · rcases d.mem_save hsave with ⟨hw', he' | he'⟩ | ⟨-, he'⟩
      · cases he'
      · simp only [Pseudo.fstore.injEq, FMemBase.reg.injEq, Reg.virt.injEq] at he'
        obtain ⟨-, rfl⟩ := hl.eq_of_not_apart hq hp hc (List.mem_append_right _ hd) (by rintro (h | h) <;> omega)
        exact hdefs hd he
      · cases he'

theorem storedLast (hl : Laid slots n all hi) (hs : Distinct n slots)
    (hindex : ∀ s ∈ slots, ∀ t ∈ slots, s.index = t.index → s = t) (hops : ∀ p ∈ all, Closed n bound p.op)
    (hmem : s ∈ slots) (hb : bound ≤ s.index) {ps : List Patch} (hps : ∀ q ∈ ps, q ∈ all) (hp : p ∈ all) {x : Nat}
    (hx : WrittenLast (ps.map Patch.op) (.virt s.vreg) x) :
    ∃ q, ps[x]? = some q ∧
      StoredLast (codes ps ++ p.piece.before) s ((codes (ps.take x)).length + q.piece.before.length)
        (codes (ps.take (x + 1))).length := by
  obtain ⟨⟨m, hm, hdef⟩, hlater⟩ := hx
  rw [List.getElem?_map, Option.map_eq_some_iff] at hm
  obtain ⟨q, hq, rfl⟩ := hm
  obtain ⟨hlt, hget⟩ := List.getElem?_eq_some_iff.mp hq
  refine ⟨q, hq, ?_⟩
  have hsplit : ps = ps.take x ++ q :: ps.drop (x + 1) := by
    rw [← hget, ← List.drop_eq_getElem_cons hlt, List.take_append_drop]
  have hnext : ps.take (x + 1) = ps.take x ++ [q] := by
    rw [List.take_add_one, hq]
    rfl
  have hrun : codes ps ++ p.piece.before =
      codes (ps.take x) ++ (q.piece.code ++ (codes (ps.drop (x + 1)) ++ p.piece.before)) := by
    conv => lhs; rw [hsplit]
    simp [codes]
  have hcode : ∀ m ∈ codes ps ++ p.piece.before, ∃ p ∈ all, m ∈ p.piece.code := by
    intro m hm
    rcases List.mem_append.mp hm with hm | hm
    · obtain ⟨r, hr, hm⟩ := List.mem_flatMap.mp hm
      exact ⟨r, hps r hr, hm⟩
    · exact ⟨p, hp, List.mem_append_left _ hm⟩
  obtain ⟨k, src, hk, hlt', hsaves, hlast⟩ := saved hs (hl.mem (hps q (List.mem_of_getElem? hq))).2 hmem hdef
    (codes (ps.take x)) (codes (ps.drop (x + 1)) ++ p.piece.before)
  rw [← hrun] at hsaves hlast
  refine ⟨k, src, hlt', ?_, hsaves, hlast, fun j hj hstores => ?_⟩
  · rw [hnext, codes, List.flatMap_append, List.length_append, List.flatMap_singleton]
    rw [codes] at hk
    omega
  · -- behind the code of the last operation that writes the register, none stores into its slot
    obtain ⟨m, hm⟩ := hstores.exists_op
    have hrest := hm
    rw [hrun, List.getElem?_append_right (by omega), List.getElem?_append_right (by omega)] at hrest
    rcases List.mem_append.mp (List.mem_of_getElem? hrest) with hrest | hrest
    · obtain ⟨r, hr, hcode'⟩ := List.mem_flatMap.mp hrest
      obtain ⟨i, hi⟩ := List.mem_iff_getElem?.mp hr
      rw [List.getElem?_drop] at hi
      refine hlater (x + 1 + i) r.op (by omega) (by rw [List.getElem?_map, hi]; rfl) ?_
      exact hstores.mem_defs hl hindex hcode hops hmem hb hm (hps r (List.mem_of_getElem? hi)) hcode'
    · exact hstores.not_mem_before hm p hrest

end Flow

def patchAt? (rows : List (List Patch)) (b k : Nat) : Option Patch := (rows[b]?).bind (·[k]?)

def patches (rows : List (List Patch)) (done : List (Nat × Nat)) : List Patch :=
  done.filterMap fun at' => patchAt? rows at'.1 at'.2

def placeOf (rows : List (List Patch)) (b k : Nat) : Nat :=
  (codes ((rows.getD b []).take k)).length + ((patchAt? rows b k).elim 0 fun p => p.piece.before.length)

def Routine.Closed (f : Routine) (plan : FramePlan) : Prop :=
  ∀ block ∈ f.blocks, ∀ m ∈ block, Allocation.Closed f.numVRegs plan.objects.length m

/-- Behind the patches `ps`, the operation of patch `p` reads what it read before. An operand that was a
spilled register is a new temporary that the code just before loaded from the slot. If operation `x`
wrote the register last, then the last store into the slot is in the code just behind that operation,
and stores its result. -/
def FlowsTo (f : Routine) (plan : FramePlan) (slots : List SpillSlot) (ps : List Patch) (p : Patch) : Prop :=
  ∀ i : Nat, ∀ s ∈ slots, p.op.uses[i]? = some (.virt s.vreg) →
    ∃ t, f.numVRegs ≤ t ∧ p.piece.inst.uses[i]? = some (.virt t) ∧
      Reloaded (codes ps ++ p.piece.before) (codes ps).length s (.virt t) ∧
      (Routine.Closed f plan → ∀ x, WrittenLast (ps.map Patch.op) (.virt s.vreg) x → ∃ q, ps[x]? = some q ∧
        StoredLast (codes ps ++ p.piece.before) s ((codes (ps.take x)).length + q.piece.before.length)
          (codes (ps.take (x + 1))).length)

/-- The function `g` is `f` with the registers of `vs` moved to the frame objects `slots`. -/
structure MovesToStack (f : Routine) (plan : FramePlan) (vs : List Nat) (slots : List SpillSlot)
    (rows : List (List Patch)) (g : Routine) : Prop where
  homes : ∀ s, s ∈ slots ↔ SlotFor f vs plan.objects.length s
  gone : ∀ v ∈ vs, ¬ Occurs g v
  created : Extends f { g with blocks := f.blocks }
  source : f.blocks = rows.map (·.map Patch.op)
  code : g.blocks = rows.map codes
  /-- Operations change only in operands that were registers of `vs`. -/
  kept : ∀ row ∈ rows, ∀ p ∈ row, ∃ σ δ : Reg → Reg, p.piece.inst = p.op.rename σ δ ∧
    ∀ r, (∀ v ∈ vs, r ≠ .virt v) → σ r = r ∧ δ r = r
  /-- Control goes the same ways, through the code of the patches. -/
  forth : ∀ done b k p, patchAt? rows b k = some p → f.Walk done b k →
    ∃ done', g.Walk done' b (placeOf rows b k) ∧ g.run done' = codes (patches rows done) ++ p.piece.before
  flow : ∀ done' b k p, patchAt? rows b k = some p → g.Walk done' b (placeOf rows b k) →
    ∃ done, f.Walk done b k ∧ f.run done = (patches rows done).map Patch.op ∧
      g.run done' = codes (patches rows done) ++ p.piece.before ∧ FlowsTo f plan slots (patches rows done) p

section Insert

variable {f g : Routine} {plan : FramePlan} {vs : List Nat} {slots : List SpillSlot} {rows : List (List Patch)}
  {s : SpillSlot} {p : Patch} {b k : Nat}

theorem SlotFor.eq_of_index {first : Nat} {t : SpillSlot} (hs : SlotFor f vs first s) (ht : SlotFor f vs first t)
    (he : s.index = t.index) : s = t := by
  obtain ⟨i, hi, hindex, hcls⟩ := hs
  obtain ⟨j, hj, hindex', hcls'⟩ := ht
  obtain rfl : i = j := by omega
  have hv : s.vreg = t.vreg := Option.some.inj (hi.symm.trans hj)
  rw [hv, hcls'] at hcls
  obtain ⟨v, index, cls⟩ := s
  obtain ⟨v', index', cls'⟩ := t
  cases hv
  cases he
  cases hcls
  rfl

theorem piece?_weaveOf (rows : List (List Patch)) (b k : Nat) :
    (weaveOf rows).piece? b k = (patchAt? rows b k).map Patch.piece := by
  cases hb : rows[b]? <;> simp [Weave.piece?, weaveOf, patchAt?, hb]

theorem pieces_weaveOf (rows : List (List Patch)) (done : List (Nat × Nat)) :
    (weaveOf rows).pieces done = (patches rows done).map Patch.piece := by
  simp only [Weave.pieces, patches, List.map_filterMap, piece?_weaveOf]

theorem start_weaveOf (rows : List (List Patch)) (b k : Nat) :
    (weaveOf rows).start b k = (codes ((rows.getD b []).take k)).length := by
  cases hb : rows[b]? with
  | none => simp [Weave.start, weaveOf, codes, hb]
  | some row =>
    simp [Weave.start, weaveOf, codes, hb]
    rfl

theorem not_mem_regs_code {n hi : Nat} (hs : Distinct n slots) (hf : p.Fresh n hi) (hc : p.Covers slots)
    (hmem : s ∈ slots) {m : Pseudo} (hm : m ∈ p.piece.code) : .virt s.vreg ∉ m.regs := by
  have hlt := hs.below s hmem
  have hnew {c : Carrier} (hc : c ∈ p.loads ++ p.saves) : n ≤ c.temp := (hf.within c hc).1
  rw [Pseudo.virt_mem_regs]
  rcases Patch.mem_code hm with ⟨c, hload, hm⟩ | rfl | ⟨c, hsave, hm⟩
  · have := hnew (List.mem_append_left _ hload)
    rcases c.mem_load hm with ⟨-, rfl | rfl⟩ | ⟨-, rfl⟩ <;>
      simp [Pseudo.uses, Pseudo.defs, Pseudo.dst?, MemBase.regs, FMemBase.regs] <;> omega
  · rw [Patch.uses_inst, Patch.defs_inst, List.mem_map, List.mem_map]
    rintro (⟨u, hu, he⟩ | ⟨d, hd, he⟩)
    · rcases Carrier.swap_cases p.loads u with ⟨hsame, hnone⟩ | ⟨c, hload, -, ht⟩
      · rw [hsame] at he
        subst he
        obtain ⟨c, hload, rfl, -⟩ := hc.exists_load hs hmem hu
        exact hnone c hload rfl
      · have := hnew (List.mem_append_left _ hload)
        have := Reg.virt.inj (ht.symm.trans he)
        omega
    · rcases Carrier.swap_cases p.saves d with ⟨hsame, hnone⟩ | ⟨c, hsave, -, ht⟩
      · rw [hsame] at he
        subst he
        obtain ⟨c, hsaves, rfl⟩ := hc.saves_eq hs hmem hd
        exact hnone c (by simp [hsaves]) rfl
      · have := hnew (List.mem_append_right _ hsave)
        have := Reg.virt.inj (ht.symm.trans he)
        omega
  · have := hnew (List.mem_append_right _ hsave)
    rcases c.mem_save hm with ⟨-, rfl | rfl⟩ | ⟨-, rfl⟩ <;>
      simp [Pseudo.uses, Pseudo.defs, Pseudo.dst?, MemBase.regs, FMemBase.regs] <;> omega

theorem mem_flatten_of_patchAt? (h : patchAt? rows b k = some p) : p ∈ rows.flatten := by
  obtain ⟨row, hb, hk⟩ := Option.bind_eq_some_iff.mp h
  exact List.mem_flatten.mpr ⟨row, List.mem_of_getElem? hb, List.mem_of_getElem? hk⟩

/-- The flow of data along a way through the function. -/
theorem SpilledInto.flowsTo (h : SpilledInto slots rows f g) (hs : Distinct f.numVRegs slots)
    (hslots : ∀ s ∈ slots, SlotFor f vs plan.objects.length s) (hp : patchAt? rows b k = some p)
    (done : List (Nat × Nat)) : FlowsTo f plan slots (patches rows done) p := by
  intro i s hmem hi
  have hall := mem_flatten_of_patchAt? hp
  obtain ⟨hf, hc⟩ := h.laid.mem hall
  obtain ⟨t, hle, hswap, hre⟩ := reloaded hs hf hc hmem (List.mem_of_getElem? hi) (codes (patches rows done))
  refine ⟨t, hle, by rw [Patch.uses_inst, List.getElem?_map, hi, Option.map_some, hswap], hre, fun hclosed x hx => ?_⟩
  have hops : ∀ q ∈ rows.flatten, Closed f.numVRegs plan.objects.length q.op := fun q hq => by
    obtain ⟨row, hrow, hq⟩ := List.mem_flatten.mp hq
    refine hclosed (row.map Patch.op) ?_ q.op (List.mem_map.mpr ⟨q, hq, rfl⟩)
    rw [h.source]
    exact List.mem_map.mpr ⟨row, hrow, rfl⟩
  have hb : plan.objects.length ≤ s.index := by
    obtain ⟨j, -, hindex, -⟩ := hslots s hmem
    omega
  have hps : ∀ q ∈ patches rows done, q ∈ rows.flatten := fun q hq => by
    obtain ⟨at', -, hq⟩ := List.mem_filterMap.mp hq
    exact mem_flatten_of_patchAt? hq
  exact storedLast h.laid hs (fun s hs t ht => (hslots s hs).eq_of_index (hslots t ht)) hops hmem hb hps hall hx

theorem SpilledInto.gone (h : SpilledInto slots rows f g) (hs : Distinct f.numVRegs slots) (hmem : s ∈ slots) :
    ¬ Occurs g s.vreg := by
  rintro ⟨b, k, m, hm, hr⟩
  obtain ⟨block, hb, hk⟩ := opAt?_some hm
  rw [h.code, List.getElem?_map, Option.map_eq_some_iff] at hb
  obtain ⟨row, hrow, rfl⟩ := hb
  obtain ⟨p, hp, hcode⟩ := List.mem_flatMap.mp (List.mem_of_getElem? hk)
  obtain ⟨hf, hc⟩ := h.laid.mem (List.mem_flatten.mpr ⟨row, List.mem_of_getElem? hrow, hp⟩)
  exact not_mem_regs_code hs hf hc hmem hcode hr

/-- The ways to an operation in the result are those to it in the source, through the code of patches. -/
theorem SpilledInto.walk (h : SpilledInto slots rows f g) (hp : patchAt? rows b k = some p) :
    placeOf rows b k = (weaveOf rows).start b k + p.piece.before.length ∧
      (weaveOf rows).piece? b k = some p.piece ∧
      ∀ done, g.run (done.flatMap (weaveOf rows).trail ++ ((weaveOf rows).trail (b, k)).take p.piece.before.length) =
        codes (patches rows done) ++ p.piece.before := by
  have hpiece : (weaveOf rows).piece? b k = some p.piece := by rw [piece?_weaveOf, hp]; rfl
  refine ⟨by rw [placeOf, start_weaveOf, hp]; rfl, hpiece, fun done => ?_⟩
  rw [Routine.run_append, h.joins.run_trail, h.joins.run_trail_take hpiece (by simp [Piece.code]), pieces_weaveOf,
    List.flatMap_map, Piece.code, List.take_left]
  rfl

/-- Spill code keeps the flow of data. -/
theorem insertSpillCode_keeps_flow (f : Routine) (plan : FramePlan) {vs : List Nat} (hd : vs.Nodup)
    (hv : ∀ v ∈ vs, (f.classOf? v).isSome = true ∧ f.isTemp v = false) :
    ∃ g slots rows,
      insertSpillCode f plan vs = (.ok g, { plan with objects := plan.objects ++ vs.map (spillObject f) }) ∧
      MovesToStack f plan vs slots rows g := by
  have hnone : ∀ s ∈ ([] : List SpillSlot), s.vreg ∉ vs := by simp
  obtain ⟨slots, hadd, hmem⟩ := addSlots_listed hd hv hnone plan
  have hs : Distinct f.numVRegs slots := addSlots_distinct hadd .nil (by simp)
  have hslots : ∀ s, s ∈ slots ↔ SlotFor f vs plan.objects.length s := fun s => by simpa using hmem s
  obtain ⟨g, rows, hins, h⟩ := insertSpillCode_patches hadd
  have hlisted {cs : List Carrier} (hcs : ∀ c ∈ cs, c.slot ∈ slots) (r : Reg)
      (hr : ∀ v ∈ vs, r ≠ .virt v) : Carrier.swap cs r = r :=
    Carrier.swap_of_forall_ne fun c hc => by
      obtain ⟨i, hi, -⟩ := (hslots c.slot).mp (hcs c hc)
      exact hr _ (List.mem_of_getElem? hi)
  refine ⟨g, slots, rows, hins, ⟨hslots, fun v hv' => ?_, h.grown, h.source, h.code, fun row hrow p hp => ?_,
    fun done b k p hp hw => ?_, fun done' b k p hp hw => ?_⟩⟩
  · obtain ⟨i, hi⟩ := List.mem_iff_getElem?.mp hv'
    obtain ⟨cls, hcls⟩ := Option.isSome_iff_exists.mp (hv v hv').1
    exact h.gone hs ((hslots ⟨v, plan.objects.length + i, cls⟩).mpr ⟨i, hi, rfl, hcls⟩)
  · obtain ⟨-, hc⟩ := h.laid.mem (List.mem_flatten.mpr ⟨row, hrow, hp⟩)
    exact ⟨_, _, rfl, fun r hr => ⟨hlisted (fun c hc' => (hc.loads.slot_mem hc').1) r hr,
      hlisted (fun c hc' => (hc.saves.slot_mem hc').1) r hr⟩⟩
  · obtain ⟨hplace, hpiece, hrun⟩ := h.walk hp
    rw [hplace]
    refine ⟨_, (hw.weave h.joins).through h.joins hpiece (by simp [Piece.code]) fun hlt => ?_, hrun done⟩
    exact absurd hlt (Nat.lt_irrefl _)
  · obtain ⟨hplace, hpiece, hrun⟩ := h.walk hp
    rw [hplace] at hw
    obtain ⟨done, hwalk, rfl⟩ := hw.unweave_at h.joins hpiece (by simp [Piece.code])
    refine ⟨done, hwalk, ?_, hrun done, h.flowsTo hs (fun s hs => (hslots s).mp hs) hp done⟩
    rw [h.joins.run_source, pieces_weaveOf, List.map_map]
    rfl

end Insert

/-- Doubles a float as often as the argument says, in a loop. -/
def doubling : Routine where
  name := "doubling"
  blocks := [[.copy (.virt 0) (.phys (.general 0)), .itof .double (.virt 1) (.virt 0)],
    [.falu .add .double (.virt 1) (.virt 1) (.virt 1), .aluImm .add (.virt 0) (.virt 0) (-1#32),
      .brCc (.int .ne (.virt 0) (.imm 0#32)) 1],
    [.ftoi .double (.phys (.general 0)) (.virt 1), .ret [.general 0]]]
  classes := [.gpr, .fpr]
  liveIns := [.general 0]

theorem insertSpillCode_keeps_flow_doubling :
    [1, 0].Nodup ∧ (∀ v ∈ [1, 0], (doubling.classOf? v).isSome = true ∧ doubling.isTemp v = false) ∧
    Routine.Closed doubling {} ∧
    ∃ g slots rows, insertSpillCode doubling {} [1, 0] = (.ok g, { objects := [.local 8 4, .local 4 4] }) ∧
      MovesToStack doubling {} [1, 0] slots rows g := by
  refine ⟨by decide, by decide, ?_, insertSpillCode_keeps_flow doubling {} (by decide) (by decide)⟩
  intro block hb m hm
  simp only [doubling, List.mem_cons, List.not_mem_nil, or_false] at hb
  rcases hb with rfl | rfl | rfl <;> simp only [List.mem_cons, List.not_mem_nil, or_false] at hm <;>
    rcases hm with rfl | rfl | rfl <;> constructor <;>
    simp [Pseudo.uses, Pseudo.frameRef?, Compare.regs, Routine.numVRegs, doubling]

def strayStore : Routine where
  name := "strayStore"
  blocks := [[.loadImm (.virt 0) 7#32, .store (.phys (.general 5)) .word (.frame 0) 0#32,
    .copy (.phys (.general 0)) (.virt 0), .ret [.general 0]]]
  classes := [.gpr]

/-- A frame object that operations name before it is there becomes a slot. What was stored there last
is then not what the spilled register held. -/
theorem strayStore_not_storedLast :
    ∃ g, insertSpillCode strayStore {} [0] = (.ok g, { objects := [.local 4 4] }) ∧
      WrittenLast (strayStore.run [(0, 0), (0, 1)]) (.virt 0) 0 ∧ g.Walk [(0, 0), (0, 1), (0, 2), (0, 3)] 0 4 ∧
      g.run [(0, 0), (0, 1), (0, 2), (0, 3)] =
        [.loadImm (.virt 1) 7#32, .store (.virt 1) .word (.frame 0) 0#32,
          .store (.phys (.general 5)) .word (.frame 0) 0#32, .load (.virt 2) .word .zero (.frame 0) 0#32] ∧
      ¬ StoredLast (g.run [(0, 0), (0, 1), (0, 2), (0, 3)]) ⟨0, 0, .gpr⟩ 0 2 := by
  refine ⟨_, rfl, ?_, (((Routine.Walk.entry.pass rfl rfl).pass rfl rfl).pass rfl rfl).pass rfl rfl, rfl, ?_⟩
  · exact writtenLast_of_eq [] (.loadImm (.virt 0) 7#32) [.store (.phys (.general 5)) .word (.frame 0) 0#32] rfl rfl
      (by simp [Pseudo.defs, Pseudo.dst?]) (by simp [Pseudo.defs, Pseudo.dst?])
  · rintro ⟨n, src, -, hlt, -, -, hlast⟩
    exact hlast 2 hlt (.object rfl)

end Allocation

end DirectPage
