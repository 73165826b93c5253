import Mathlib.Data.List.Nodup
import DirectPage.Proofs.Occupancy

/-! Assignment by linear scan keeps the flow of data: on every path, every operand reads what
the same operation wrote last as before.

Operations on a path are told apart by their number on it, so a loop may write a register
many times. -/
namespace DirectPage.Allocation

/-- Paths from the entry of a function: the operations executed so far, as block and index, and
the place that control has come to. A block may be left for any successor at its end and
behind any operation that ends it. -/
inductive Path (f : Routine) : List (Nat × Nat) → Nat → Nat → Prop
  | entry : Path f [] 0 0
  | exec {done : List (Nat × Nat)} {b k : Nat} {m : Pseudo} :
      Path f done b k → opAt? f b k = some m → Path f (done ++ [(b, k)]) b (k + 1)
  | leave {done : List (Nat × Nat)} {b k c : Nat} {block : List Pseudo} :
      Path f done b k → f.blocks[b]? = some block →
      (block.length ≤ k ∨ firstTerminator block < k) → c ∈ f.successors b → Path f done c 0

def writesAt (f : Routine) (r : Reg) (at' : Nat × Nat) : Bool :=
  match opAt? f at'.1 at'.2 with
  | some m => m.defs.contains r
  | none => false

def lastWrite (f : Routine) (done : List (Nat × Nat)) (r : Reg) : Option Nat :=
  done.zipIdx.foldl (fun last (at', i) => if writesAt f r at' then some i else last) none

/-- Whether a register was written on the way. Registers that hold arguments are written at
entry. -/
def Written (f : Routine) (done : List (Nat × Nat)) (r : Reg) : Prop :=
  (lastWrite f done r).isSome = true ∨ ∃ q ∈ f.liveIns, r = .phys q

/-- Wherever control comes, every operand of the operation there was written last by the same
operation in both functions, if it was written at all. No number means at entry. -/
def SameWriters (f g : Routine) : Prop :=
  ∀ done b k m, Path f done b k → opAt? f b k = some m →
    ∃ m', opAt? g b k = some m' ∧ m'.uses.length = m.uses.length ∧
      ∀ (i : Nat) (u u' : Reg), m.uses[i]? = some u → m'.uses[i]? = some u' → Written f done u →
        lastWrite g done u' = lastWrite f done u

theorem lastWrite_append (f : Routine) (done : List (Nat × Nat)) (at' : Nat × Nat) (r : Reg) :
    lastWrite f (done ++ [at']) r =
      if writesAt f r at' then some done.length else lastWrite f done r := by
  simp [lastWrite, List.zipIdx_append, List.foldl_append]

section Assign

variable {f : Routine} {map : RegMap}

theorem opAt?_assign (f : Routine) (map : RegMap) (b k : Nat) :
    opAt? (f.assign map) b k = (opAt? f b k).map (·.mapRegs map.apply) := by
  cases hb : f.blocks[b]? <;> simp [opAt?, Routine.assign, hb]

variable {b k : Nat} {block : List Pseudo} {m : Pseudo} {r : Reg} {done : List (Nat × Nat)}

theorem writesAt_assign (hm : opAt? f b k = some m) (r : Reg) :
    writesAt (f.assign map) r (b, k) = (m.defs.map map.apply).contains r := by
  simp only [writesAt, opAt?_assign, hm, Option.map_some,
    Pseudo.defs_mapRegs map.apply_phys]

/-- A register that is live before an operation is read by it, or live behind it and not
written by it. -/
theorem LiveAt.of_op (hm : opAt? f b k = some m) (h : r ∈ m.uses ∨ r ∉ m.defs ∧ LiveAt f b (k + 1) r) :
    LiveAt f b k r := by
  obtain ⟨block, hb, hk⟩ := opAt?_some hm
  obtain ⟨hlt, hget⟩ := List.getElem?_eq_some_iff.mp hk
  refine ⟨block, hb, by omega, ?_⟩
  rw [List.drop_eq_getElem_cons hlt, hget, liveBefore_cons]
  rcases h with hu | ⟨hd, block', hb', -, hl⟩
  · simp [hu]
  · rw [hb] at hb'
    cases hb'
    simp [hd, hl]

/-- No register is written behind the first operation that ends a block. -/
def WritesFirst (f : Routine) : Prop :=
  ∀ block ∈ f.blocks, ∀ m ∈ block.drop (firstTerminator block), m.defs = []

instance (f : Routine) : Decidable (WritesFirst f) :=
  inferInstanceAs (Decidable (∀ block ∈ f.blocks, ∀ m ∈ block.drop (firstTerminator block), m.defs = []))

/-- A register that is live at the start of a successor is live wherever the block may be left. -/
theorem LiveAt.of_leave {c : Nat} (hw : WritesFirst f) (hb : f.blocks[b]? = some block) (hk : k ≤ block.length)
    (hleave : block.length ≤ k ∨ firstTerminator block < k) (hc : c ∈ f.successors b) (h : LiveAt f c 0 r) :
    LiveAt f b k r := by
  refine ⟨block, hb, hk, ?_⟩
  obtain ⟨block', hc', -, hl⟩ := h
  rw [List.drop_zero, ← holds_liveIn_iff hc'] at hl
  have hout : holds (liveOut f r) b = true := by
    rw [holds_liveOut hb, List.any_eq_true]
    exact ⟨c, hc, hl⟩
  have hkill : kills r (block.drop k) = false := by
    rw [kills, List.any_eq_false]
    intro m hm
    have hm' : m ∈ block.drop (firstTerminator block) := by
      rcases hleave with he | hlt
      · rw [List.drop_of_length_le he] at hm
        cases hm
      · rw [show k = firstTerminator block + (k - firstTerminator block) by omega, ← List.drop_drop] at hm
        exact List.mem_of_mem_drop hm
    simp [hw block (List.mem_of_getElem? hb) m hm']
  simp [liveBefore, hkill, hout]

theorem Path.index_le (h : Path f done b k) (hb : f.blocks[b]? = some block) : k ≤ block.length := by
  cases h with
  | entry => omega
  | exec _ hm =>
    obtain ⟨block', hb', hk⟩ := opAt?_some hm
    rw [hb] at hb'
    cases hb'
    have := (List.getElem?_eq_some_iff.mp hk).1
    omega
  | leave => omega

/-- Assignment keeps the last writer of every live register, provided that no operation
overwrites the place of a register that is live behind it. -/
theorem lastWrite_assign (hw : WritesFirst f)
    (hsep : ∀ {b k : Nat} {m : Pseudo} {d u : Reg}, opAt? f b k = some m → d ∈ m.defs → LiveAt f b (k + 1) u →
      u ≠ d → map.apply u ≠ map.apply d)
    (h : Path f done b k) {u : Reg} (hl : LiveAt f b k u) (hu : Written f done u) :
    lastWrite (f.assign map) done (map.apply u) = lastWrite f done u := by
  induction h generalizing u with
  | entry => rfl
  | @exec done b k m _ hm ih =>
    rw [lastWrite_append, lastWrite_append, writesAt_assign hm]
    by_cases hd : u ∈ m.defs
    · have h1 : (m.defs.map map.apply).contains (map.apply u) = true := by
        simpa using ⟨u, hd, rfl⟩
      have h2 : writesAt f u (b, k) = true := by simp [writesAt, hm, hd]
      rw [h1, h2]
      rfl
    · have h1 : (m.defs.map map.apply).contains (map.apply u) = false := by
        rw [← Bool.not_eq_true, List.contains_iff_mem, List.mem_map]
        rintro ⟨d, hd', he⟩
        exact hsep hm hd' hl (fun h => hd (h ▸ hd')) he.symm
      have h2 : writesAt f u (b, k) = false := by simp [writesAt, hm, hd]
      rw [h1, h2]
      refine ih (.of_op hm (.inr ⟨hd, hl⟩)) (hu.imp (fun h => ?_) id)
      rwa [lastWrite_append, h2] at h
  | @leave done b k c block hp hb hleave hc ih =>
    exact ih (.of_leave hw hb (hp.index_le hb) hleave hc hl) hu

theorem assignAll_of_assigned (h : ∀ v, Occurs f v → (map v).isSome = true) :
    f.assignAll map = .ok (f.assign map) := by
  have hn : f.unassigned? map = none := by
    rw [Routine.unassigned?, List.findSome?_eq_none_iff]
    intro block hb
    rw [List.findSome?_eq_none_iff]
    intro m hm
    rw [List.findSome?_eq_none_iff]
    intro r hr
    cases r with
    | phys r => rfl
    | virt v =>
      obtain ⟨b, hb⟩ := List.mem_iff_getElem?.mp hb
      obtain ⟨k, hk⟩ := List.mem_iff_getElem?.mp hm
      obtain ⟨q, hq⟩ := Option.isSome_iff_exists.mp (h v ⟨b, k, m, by simp [opAt?, hb, hk], hr⟩)
      simp [RegMap.missing?, hq]
  simp [Routine.assignAll, hn]

end Assign

/-- Linear scan is sound. Where it spills nothing, every virtual register that occurs gets a
register of its class outside the reserved set, and assigning them keeps the last writer of
every operand on every path. -/
theorem linearScan_keeps_writers {f : Routine} {reserved : Reserved} {a : Assignment}
    (hw : WritesFirst f) (h : linearScan f reserved = .ok a) (hs : a.spilled = []) :
    (∀ v, Occurs f v → ∃ r cls, a.regMap v = some r ∧ f.classOf? v = some cls ∧
      r.inClass cls = true ∧ reserved.contains r = false) ∧
    ∃ g, f.assignAll a.regMap = .ok g ∧ SameWriters f g := by
  refine ⟨fun v hv => linearScan_assigns h hs hv, f.assign a.regMap, ?_, ?_⟩
  · refine assignAll_of_assigned fun v hv => ?_
    obtain ⟨r, cls, hr, -⟩ := linearScan_assigns h hs hv
    simp [hr]
  · intro done b k m hp hm
    refine ⟨m.mapRegs a.regMap.apply, by simp [opAt?_assign, hm], ?_, ?_⟩
    · simp [Pseudo.uses_mapRegs a.regMap.apply_phys]
    · intro i u u' hu hu' hwritten
      rw [Pseudo.uses_mapRegs a.regMap.apply_phys, List.getElem?_map, hu] at hu'
      cases hu'
      exact lastWrite_assign hw (linearScan_separates h hs) hp
        (.of_op hm (.inl (List.mem_of_getElem? hu))) hwritten

def sumDown : Routine where
  name := "sumDown"
  blocks := [[.copy (.virt 0) (.phys (.general 0)), .loadImm (.virt 1) 0#32],
    [.alu .add (.virt 1) (.virt 1) (.virt 0), .aluImm .add (.virt 0) (.virt 0) (-1#32),
      .brCc (.int .ne (.virt 0) (.imm 0#32)) 1],
    [.copy (.phys (.general 0)) (.virt 1), .ret [.general 0]]]
  classes := [.gpr, .gpr]
  liveIns := [.general 0]

/-- The argument stays where it is, and the sum, which is live at the same time, does not get
that register although it is returned there. -/
private theorem linearScan_sumDown :
    linearScan sumDown .base = .ok { map := [(1, .general 1), (0, .general 0)] } := by
  have hi : intervals sumDown = [⟨0, ⟨1, 9⟩⟩, ⟨1, ⟨3, 10⟩⟩] := intervals_eq (by decide +kernel) (by decide)
  have hview : viewScan sumDown .base [⟨0, ⟨1, 9⟩⟩, ⟨1, ⟨3, 10⟩⟩] = .ok ([(1, .general 1), (0, .general 0)], []) := by
    decide +kernel
  have hsaved : calleeSavedIn [(1, .general 1), (0, .general 0)] = [] := by decide +kernel
  rw [linearScan_eq .base (by decide +kernel) hi, hview, ← hsaved]
  rfl

theorem linearScan_keeps_writers_sumDown :
    WritesFirst sumDown ∧
    ∃ a, linearScan sumDown .base = .ok a ∧ a.spilled = [] ∧
      (∀ v, Occurs sumDown v → ∃ r cls, a.regMap v = some r ∧ sumDown.classOf? v = some cls ∧
        r.inClass cls = true ∧ Reserved.base.contains r = false) ∧
      ∃ g, sumDown.assignAll a.regMap = .ok g ∧ SameWriters sumDown g :=
  ⟨by decide, _, linearScan_sumDown, rfl, linearScan_keeps_writers (by decide) linearScan_sumDown rfl⟩

end DirectPage.Allocation
