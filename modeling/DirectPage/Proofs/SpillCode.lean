import Mathlib.Data.List.Pairwise
import DirectPage.Allocation.Spill
import DirectPage.Proofs.Semantics
import DirectPage.Proofs.Walk

/-! The shape of spill code.

An operation becomes loads of the spilled registers that it reads, the operation over the
temporaries loaded, and a store of the spilled register that it writes. Temporaries are numbered
in the order of the code, so no two of them are the same. -/
namespace DirectPage

namespace Pseudo

/-- The operation with what it reads renamed by `σ`, and its result by `δ`. -/
def rename (σ δ : Reg → Reg) (m : Pseudo) : Pseudo :=
  match m.dst? with
  | some d => (m.mapRegs σ).withDst (δ d)
  | none => m.mapRegs σ

def frameRef? : Pseudo → Option Nat
  | frameAddr _ index _ | load _ _ _ (.frame index) _ | store _ _ (.frame index) _ => some index
  | _ => none

section Rename

variable {σ δ : Reg → Reg} {m : Pseudo}

theorem rename_id (m : Pseudo) : m.rename id id = m := by
  rw [rename]
  split
  · next d hd => rw [mapRegs_id, id_eq, withDst_self hd]
  · exact mapRegs_id m

theorem mapRegs_eq_rename (g : Reg → Reg) (m : Pseudo) : m.mapRegs g = m.rename g g := by
  rw [rename]
  split
  · next d hd => rw [withDst_self (by rw [dst?_mapRegs, hd]; rfl)]
  · rfl

theorem rename_congr {δ' : Reg → Reg} (h : ∀ d, m.dst? = some d → δ d = δ' d) : m.rename σ δ = m.rename σ δ' := by
  rw [rename, rename]
  split
  · next d hd => rw [h d hd]
  · rfl

theorem mapRegs_rename (g σ δ : Reg → Reg) (m : Pseudo) : (m.rename σ δ).mapRegs g = m.rename (g ∘ σ) (g ∘ δ) := by
  rw [rename, rename]
  split
  · rw [withDst_mapRegs, mapRegs_mapRegs]
    rfl
  · rw [mapRegs_mapRegs]

theorem withDst_rename {d : Reg} (hd : m.dst? = some d) (e : Reg) :
    (m.rename σ δ).withDst e = m.rename σ fun _ => e := by
  simp only [rename, hd, withDst_withDst]

theorem uses_rename (hσ : ∀ r, σ (.phys r) = .phys r) (δ : Reg → Reg) (m : Pseudo) :
    (m.rename σ δ).uses = m.uses.map σ := by
  rw [rename]
  split
  · rw [uses_withDst, uses_mapRegs hσ]
  · rw [uses_mapRegs hσ]

theorem defs_rename (hδ : ∀ r, δ (.phys r) = .phys r) (σ : Reg → Reg) (m : Pseudo) :
    (m.rename σ δ).defs = m.defs.map δ := by
  cases m with
  | call target args clobbers => cases target <;> simp [rename, dst?, mapRegs, defs, hδ]
  | pop reg => simp [rename, dst?, mapRegs, defs, hδ]
  | _ => rfl

variable (σ δ : Reg → Reg) (m : Pseudo)

theorem isTerminator_rename : (m.rename σ δ).isTerminator = m.isTerminator := by
  cases m with
  | call target args clobbers => cases target <;> rfl
  | _ => rfl

theorem passes_rename : (m.rename σ δ).passes = m.passes := by
  cases m with
  | call target args clobbers => cases target <;> rfl
  | _ => rfl

theorem target?_rename : (m.rename σ δ).target? = m.target? := by
  cases m with
  | call target args clobbers => cases target <;> rfl
  | _ => rfl

theorem frameRef?_rename : (m.rename σ δ).frameRef? = m.frameRef? := by
  cases m with
  | load dst width ext base offset => cases base <;> rfl
  | store src width base offset => cases base <;> rfl
  | call target args clobbers => cases target <;> rfl
  | _ => rfl

end Rename

variable {m : Pseudo}

/-- Terminators write no register. -/
theorem defs_of_isTerminator (h : m.isTerminator = true) : m.defs = [] := by
  cases m <;> first | rfl | cases h

theorem virt_mem_defs {v : Nat} : .virt v ∈ m.defs ↔ m.dst? = some (.virt v) := by
  cases m <;> simp [defs, dst?, eq_comm]

theorem isTerminator_mapRegs (g : Reg → Reg) (m : Pseudo) : (m.mapRegs g).isTerminator = m.isTerminator := by
  cases m with
  | call target => cases target <;> rfl
  | _ => rfl

theorem isTerminator_withDst (d : Reg) (m : Pseudo) : (m.withDst d).isTerminator = m.isTerminator := by
  cases m <;> rfl

end Pseudo

namespace Allocation

section Checks

variable {m : Pseudo} {sp : Spilled}

/-! Spill code without the checks for a result and for a terminator. Neither of them ever
fails, so this is what spilling does. -/

def Spilled.store (sp : Spilled) (s : SpillSlot) : Spilled :=
  let (t, f) := sp.routine.newTemp s.cls
  let (code, f) := saveBack f t s
  { sp with routine := f, inst := sp.inst.withDst t, after := sp.after ++ code }

def Spilled.pass (m : Pseudo) (sp : Spilled) (s : SpillSlot) : Spilled :=
  let sp := if m.uses.contains (.virt s.vreg) then sp.read s else sp
  if m.defs.contains (.virt s.vreg) then sp.store s else sp

def patchInst (slots : List SpillSlot) (f : Routine) (m : Pseudo) : List Pseudo × Routine :=
  let sp := slots.foldl (Spilled.pass m) ⟨f, [], m, []⟩
  (sp.before ++ sp.inst :: sp.after, sp.routine)

def patchBlock (slots : List SpillSlot) : Routine → List Pseudo → List Pseudo × Routine
  | f, [] => ([], f)
  | f, m :: rest =>
    let (code, f) := patchInst slots f m
    let (codes, f) := patchBlock slots f rest
    (code ++ codes, f)

def patchBlocks (slots : List SpillSlot) :
    Routine → List (List Pseudo) → List (List Pseudo) × Routine
  | f, [] => ([], f)
  | f, block :: rest =>
    let (code, f) := patchBlock slots f block
    let (codes, f) := patchBlocks slots f rest
    (code :: codes, f)

/-- The operation still has a result and still ends its block exactly if `m` does, and behind
one that writes no register there is no code. -/
structure Spilled.Like (m : Pseudo) (sp : Spilled) : Prop where
  result : sp.inst.dst?.isSome = m.dst?.isSome
  terminator : sp.inst.isTerminator = m.isTerminator
  after : m.defs = [] → sp.after = []

private theorem Spilled.Like.read (h : sp.Like m) (s : SpillSlot) : (sp.read s).Like m where
  result := by
    change (sp.inst.mapRegs _).dst?.isSome = _
    rw [Pseudo.dst?_mapRegs, Option.isSome_map, h.result]
  terminator := (Pseudo.isTerminator_mapRegs _ _).trans h.terminator
  after := h.after

private theorem Spilled.Like.store (h : sp.Like m) (s : SpillSlot) (hd : m.defs ≠ []) : (sp.store s).Like m where
  result := by
    change (sp.inst.withDst _).dst?.isSome = _
    rw [Pseudo.dst?_withDst, Option.isSome_map, h.result]
  terminator := (Pseudo.isTerminator_withDst _ _).trans h.terminator
  after hn := absurd hn hd

/-- A register that an operation writes is its result, so there is a place for a temporary. -/
private theorem Spilled.Like.step (h : sp.Like m) (s : SpillSlot) :
    sp.step m s = .ok (sp.pass m s) ∧ (sp.pass m s).Like m := by
  obtain ⟨sp', hsp, h'⟩ : ∃ sp', (if m.uses.contains (.virt s.vreg) then sp.read s else sp) = sp' ∧ sp'.Like m := by
    split
    · exact ⟨_, rfl, h.read s⟩
    · exact ⟨_, rfl, h⟩
  simp only [Spilled.step, Spilled.pass, hsp]
  split
  · next hw =>
    have hmem := List.contains_iff_mem.mp hw
    have hsome : sp'.inst.dst?.isNone = false := by
      rw [← Option.not_isSome, h'.result, Pseudo.virt_mem_defs.mp hmem]
      rfl
    refine ⟨?_, h'.store s (List.ne_nil_of_mem hmem)⟩
    simp only [Spilled.write, hsome]
    rfl
  · exact ⟨rfl, h'⟩

private theorem Spilled.Like.foldlM (h : sp.Like m) (slots : List SpillSlot) :
    slots.foldlM (Spilled.step m) sp = .ok (slots.foldl (Spilled.pass m) sp) ∧
      (slots.foldl (Spilled.pass m) sp).Like m := by
  induction slots generalizing sp with
  | nil => exact ⟨rfl, h⟩
  | cons s rest ih =>
    obtain ⟨hstep, hlike⟩ := h.step s
    rw [List.foldlM_cons, hstep]
    exact ih hlike

/-- A terminator writes no register, so nothing is to be stored behind it. -/
theorem spillInst_eq (slots : List SpillSlot) (f : Routine) (m : Pseudo) :
    spillInst slots f m = .ok (patchInst slots f m) := by
  have hstart : Spilled.Like m ⟨f, [], m, []⟩ := ⟨rfl, rfl, fun _ => rfl⟩
  obtain ⟨hfold, hlike⟩ := hstart.foldlM slots
  have hplace : ((slots.foldl (Spilled.pass m) ⟨f, [], m, []⟩).inst.isTerminator &&
      !(slots.foldl (Spilled.pass m) ⟨f, [], m, []⟩).after.isEmpty) = false := by
    rw [hlike.terminator]
    cases ht : m.isTerminator with
    | false => rfl
    | true => rw [hlike.after (Pseudo.defs_of_isTerminator ht)]; rfl
  rw [spillInst, hfold]
  change (if _ then _ else _) = _
  rw [hplace]
  rfl

theorem spillBlock_eq (slots : List SpillSlot) (f : Routine) (block : List Pseudo) :
    spillBlock slots f block = .ok (patchBlock slots f block) := by
  induction block generalizing f with
  | nil => rfl
  | cons m rest ih =>
    rw [spillBlock, spillInst_eq]
    change (spillBlock slots (patchInst slots f m).2 rest >>= _) = _
    rw [ih]
    rfl

theorem spillBlocks_eq (slots : List SpillSlot) (f : Routine) (blocks : List (List Pseudo)) :
    spillBlocks slots f blocks = .ok (patchBlocks slots f blocks) := by
  induction blocks generalizing f with
  | nil => rfl
  | cons block rest ih =>
    rw [spillBlocks, spillBlock_eq]
    change (spillBlocks slots (patchBlock slots f block).2 rest >>= _) = _
    rw [ih]
    rfl

/-- Once the frame objects are there, nothing fails. -/
theorem insertSpillCode_eq (f : Routine) (plan : FramePlan) (spilled : List Nat) :
    insertSpillCode f plan spilled =
      ((addSlots f spilled [] plan).1.map fun slots =>
          { (patchBlocks slots f f.blocks).2 with blocks := (patchBlocks slots f f.blocks).1 },
        (addSlots f spilled [] plan).2) := by
  rw [insertSpillCode]
  generalize addSlots f spilled [] plan = added
  obtain ⟨slots?, plan'⟩ := added
  cases slots? with
  | error e => rfl
  | ok slots =>
    refine congrArg (·, plan') ?_
    change (spillBlocks slots f f.blocks >>= _) = _
    rw [spillBlocks_eq]
    rfl

end Checks

/-- A temporary that carries a spilled register from or to its frame object. Where the address
of the object is needed, the next temporary holds it. -/
structure Carrier where
  slot : SpillSlot
  temp : Nat
  deriving DecidableEq, Repr

namespace Carrier

def width (c : Carrier) : Nat :=
  match c.slot.cls with
  | .fpr => 2
  | .gpr | .gprLow => 1

theorem width_pos (c : Carrier) : 0 < c.width := by
  rw [width]
  split <;> decide

def load (c : Carrier) : List Pseudo :=
  match c.slot.cls with
  | .fpr =>
    [.frameAddr (.virt (c.temp + 1)) c.slot.index 0#32, .fload (.virt c.temp) .double (.reg (.virt (c.temp + 1)))]
  | .gpr | .gprLow => [.load (.virt c.temp) .word .zero (.frame c.slot.index) 0#32]

def save (c : Carrier) : List Pseudo :=
  match c.slot.cls with
  | .fpr =>
    [.frameAddr (.virt (c.temp + 1)) c.slot.index 0#32, .fstore (.virt c.temp) .double (.reg (.virt (c.temp + 1)))]
  | .gpr | .gprLow => [.store (.virt c.temp) .word (.frame c.slot.index) 0#32]

def Apart (c d : Carrier) : Prop := c.temp + c.width ≤ d.temp ∨ d.temp + d.width ≤ c.temp

instance : Std.Symm Apart := ⟨fun _ _ => Or.symm⟩

def swap (cs : List Carrier) (r : Reg) : Reg :=
  match cs.find? fun c => r == .virt c.slot.vreg with
  | some c => .virt c.temp
  | none => r

variable {m : Pseudo}

theorem mem_load (c : Carrier) (h : m ∈ c.load) :
    (c.width = 2 ∧ (m = .frameAddr (.virt (c.temp + 1)) c.slot.index 0#32 ∨
      m = .fload (.virt c.temp) .double (.reg (.virt (c.temp + 1))))) ∨
    c.width = 1 ∧ m = .load (.virt c.temp) .word .zero (.frame c.slot.index) 0#32 := by
  rw [load] at h
  cases hc : c.slot.cls <;> simpa [width, hc] using h

theorem mem_save (c : Carrier) (h : m ∈ c.save) :
    (c.width = 2 ∧ (m = .frameAddr (.virt (c.temp + 1)) c.slot.index 0#32 ∨
      m = .fstore (.virt c.temp) .double (.reg (.virt (c.temp + 1))))) ∨
    c.width = 1 ∧ m = .store (.virt c.temp) .word (.frame c.slot.index) 0#32 := by
  rw [save] at h
  cases hc : c.slot.cls <;> simpa [width, hc] using h

theorem temp_of_mem_regs (c : Carrier) (h : m ∈ c.load ∨ m ∈ c.save) :
    m.target? = none ∧ ∀ v, .virt v ∈ m.regs → c.temp ≤ v ∧ v < c.temp + c.width := by
  rcases h.imp c.mem_load c.mem_save with (⟨hw, rfl | rfl⟩ | ⟨hw, rfl⟩) | ⟨hw, rfl | rfl⟩ | ⟨hw, rfl⟩ <;>
    simp [Pseudo.target?, Pseudo.regs, MemBase.regs, FMemBase.regs, hw]

variable {cs : List Carrier} {c : Carrier} {r : Reg}

theorem swap_of_forall_ne (h : ∀ c ∈ cs, r ≠ .virt c.slot.vreg) : swap cs r = r := by
  have hnone : cs.find? (fun c => r == .virt c.slot.vreg) = none := by simpa using h
  rw [swap, hnone]

theorem swap_phys (cs : List Carrier) (r : Register) : swap cs (.phys r) = .phys r :=
  swap_of_forall_ne fun _ _ => by simp

theorem swap_cases (cs : List Carrier) (r : Reg) :
    (swap cs r = r ∧ ∀ c ∈ cs, r ≠ .virt c.slot.vreg) ∨ ∃ c ∈ cs, r = .virt c.slot.vreg ∧ swap cs r = .virt c.temp := by
  rw [swap]
  split
  · next c hc => exact .inr ⟨c, List.mem_of_find?_eq_some hc, by simpa using List.find?_some hc, rfl⟩
  · next hc => exact .inl ⟨rfl, by simpa using hc⟩

theorem swap_append_ne (h : r ≠ .virt c.slot.vreg) : swap (cs ++ [c]) r = swap cs r := by
  have hc : (r == Reg.virt c.slot.vreg) = false := by simpa using h
  simp [swap, List.find?_append, hc]

theorem swap_append_self (h : ∀ d ∈ cs, d.slot.vreg ≠ c.slot.vreg) :
    swap (cs ++ [c]) (.virt c.slot.vreg) = .virt c.temp := by
  have hnone : cs.find? (fun d => Reg.virt c.slot.vreg == .virt d.slot.vreg) = none :=
    List.find?_eq_none.mpr fun d hd => by simpa using (h d hd).symm
  simp [swap, List.find?_append, hnone]

end Carrier

/-- An operation with the registers to load before it and to store behind it. -/
structure Patch where
  op : Pseudo
  loads : List Carrier := []
  saves : List Carrier := []
  deriving DecidableEq, Repr

def Patch.piece (p : Patch) : Piece where
  op := p.op
  before := p.loads.flatMap Carrier.load
  inst := p.op.rename (Carrier.swap p.loads) (Carrier.swap p.saves)
  after := p.saves.flatMap Carrier.save

namespace Patch

structure Fresh (p : Patch) (lo hi : Nat) : Prop where
  le : lo ≤ hi
  within : ∀ c ∈ p.loads ++ p.saves, lo ≤ c.temp ∧ c.temp + c.width ≤ hi
  apart : (p.loads ++ p.saves).Pairwise Carrier.Apart

variable {p : Patch} {lo n : Nat}

theorem Fresh.load (h : p.Fresh lo n) (s : SpillSlot) :
    ({ p with loads := p.loads ++ [⟨s, n⟩] } : Patch).Fresh lo (n + Carrier.width ⟨s, n⟩) := by
  have hle := h.le
  have happart := List.pairwise_append.mp h.apart
  refine ⟨by omega, fun c hc => ?_, ?_⟩
  · simp only [List.append_assoc, List.cons_append, List.nil_append, List.mem_append, List.mem_cons] at hc
    rcases hc with hc | rfl | hc
    · have := h.within c (List.mem_append_left _ hc)
      omega
    · exact ⟨hle, Nat.le_refl _⟩
    · have := h.within c (List.mem_append_right _ hc)
      omega
  · rw [List.append_assoc, List.pairwise_append, List.cons_append, List.nil_append, List.pairwise_cons]
    refine ⟨happart.1, ⟨fun d hd => .inr (h.within d (List.mem_append_right _ hd)).2, happart.2.1⟩, fun c hc d hd => ?_⟩
    rcases List.mem_cons.mp hd with rfl | hd
    · exact .inl (h.within c (List.mem_append_left _ hc)).2
    · exact happart.2.2 c hc d hd

theorem Fresh.save (h : p.Fresh lo n) (s : SpillSlot) :
    ({ p with saves := p.saves ++ [⟨s, n⟩] } : Patch).Fresh lo (n + Carrier.width ⟨s, n⟩) := by
  have hle := h.le
  refine ⟨by omega, fun c hc => ?_, ?_⟩
  · rw [← List.append_assoc, List.mem_append, List.mem_singleton] at hc
    rcases hc with hc | rfl
    · have := h.within c hc
      omega
    · exact ⟨hle, Nat.le_refl _⟩
  · rw [← List.append_assoc, List.pairwise_append]
    refine ⟨h.apart, List.pairwise_singleton _ _, fun c hc d hd => ?_⟩
    rw [List.mem_singleton.mp hd]
    exact .inl (h.within c hc).2

end Patch

structure Carries (cs : List Carrier) (slots : List SpillSlot) (rs : List Reg) : Prop where
  mem : ∀ s, (∃ c ∈ cs, c.slot = s) ↔ s ∈ slots ∧ .virt s.vreg ∈ rs
  once : cs.Pairwise fun c d => c.slot.vreg ≠ d.slot.vreg

namespace Carries

variable {cs : List Carrier} {slots : List SpillSlot} {rs : List Reg} {s : SpillSlot}

theorem slot_mem (h : Carries cs slots rs) {c : Carrier} (hc : c ∈ cs) : c.slot ∈ slots ∧ .virt c.slot.vreg ∈ rs :=
  (h.mem c.slot).mp ⟨c, hc, rfl⟩

theorem skip (h : Carries cs slots rs) (hs : .virt s.vreg ∉ rs) : Carries cs (slots ++ [s]) rs := by
  refine ⟨fun t => ?_, h.once⟩
  rw [h.mem t, List.mem_append, List.mem_singleton]
  constructor
  · exact fun ht => ⟨.inl ht.1, ht.2⟩
  · rintro ⟨ht | rfl, hrs⟩
    · exact ⟨ht, hrs⟩
    · exact absurd hrs hs

theorem add (h : Carries cs slots rs) (hs : .virt s.vreg ∈ rs) (hne : ∀ c ∈ cs, c.slot.vreg ≠ s.vreg) (n : Nat) :
    Carries (cs ++ [⟨s, n⟩]) (slots ++ [s]) rs := by
  refine ⟨fun t => ?_, ?_⟩
  · rw [List.mem_append, List.mem_singleton]
    constructor
    · rintro ⟨c, hc, rfl⟩
      rcases List.mem_append.mp hc with hc | hc
      · exact ⟨.inl (h.slot_mem hc).1, (h.slot_mem hc).2⟩
      · rw [List.mem_singleton.mp hc]
        exact ⟨.inr rfl, hs⟩
    · rintro ⟨ht | rfl, hrs⟩
      · obtain ⟨c, hc, he⟩ := (h.mem t).mpr ⟨ht, hrs⟩
        exact ⟨c, List.mem_append_left _ hc, he⟩
      · exact ⟨⟨t, n⟩, by simp, rfl⟩
  · refine List.pairwise_append.mpr ⟨h.once, List.pairwise_singleton _ _, fun c hc d hd => ?_⟩
    rw [List.mem_singleton.mp hd]
    exact hne c hc

end Carries

/-- What is loaded and stored are the registers of `slots` that the operation reads and writes. -/
structure Patch.Covers (p : Patch) (slots : List SpillSlot) : Prop where
  loads : Carries p.loads slots p.op.uses
  saves : Carries p.saves slots p.op.defs

structure Extends (f g : Routine) : Prop where
  rest : g = { f with classes := g.classes, temps := g.temps }
  classes : ∃ new, g.classes = f.classes ++ new
  temps : ∀ t, t ∈ g.temps ↔ t ∈ f.temps ∨ f.numVRegs ≤ t ∧ t < g.numVRegs

namespace Extends

variable {f g h : Routine}

theorem refl (f : Routine) : Extends f f := ⟨rfl, ⟨[], by simp⟩, fun t => by grind⟩

theorem numVRegs_le (hfg : Extends f g) : f.numVRegs ≤ g.numVRegs := by
  obtain ⟨new, hnew⟩ := hfg.classes
  simp [Routine.numVRegs, hnew]

theorem trans (hfg : Extends f g) (hgh : Extends g h) : Extends f h := by
  obtain ⟨new, hnew⟩ := hfg.classes
  obtain ⟨new', hnew'⟩ := hgh.classes
  refine ⟨?_, ⟨new ++ new', by rw [hnew', hnew, List.append_assoc]⟩, fun t => ?_⟩
  · rw [hgh.rest, hfg.rest]
  · have := hfg.numVRegs_le
    have := hgh.numVRegs_le
    rw [hgh.temps, hfg.temps]
    grind

theorem newTemp (f : Routine) (cls : RegClass) : Extends f (f.newTemp cls).2 := by
  refine ⟨rfl, ⟨[cls], rfl⟩, fun t => ?_⟩
  simp only [Routine.newTemp, Routine.numVRegs, List.mem_cons, List.length_append, List.length_singleton]
  grind

theorem numVRegs_newTemp (f : Routine) (cls : RegClass) : (f.newTemp cls).2.numVRegs = f.numVRegs + 1 := by
  simp [Routine.newTemp, Routine.numVRegs]

end Extends

section Around

variable {lo : Nat} {m : Pseudo} {done : List SpillSlot} {s : SpillSlot} {sp : Spilled} {p : Patch} {δ : Reg → Reg}

structure Around (lo : Nat) (p : Patch) (δ : Reg → Reg) (sp : Spilled) : Prop where
  before : sp.before = p.piece.before
  inst : sp.inst = p.op.rename (Carrier.swap p.loads) δ
  after : sp.after = p.piece.after
  fresh : p.Fresh lo sp.routine.numVRegs

theorem Around.congr {δ' : Reg → Reg} (h : Around lo p δ sp) (he : ∀ d, p.op.dst? = some d → δ d = δ' d) :
    Around lo p δ' sp :=
  { h with inst := h.inst.trans (Pseudo.rename_congr he) }

private theorem reload_spec (f : Routine) (s : SpillSlot) :
    let f' := (f.newTemp s.cls).2
    (reload f' (.virt f.numVRegs) s).1 = Carrier.load ⟨s, f.numVRegs⟩ ∧
      Extends f (reload f' (.virt f.numVRegs) s).2 ∧
      (reload f' (.virt f.numVRegs) s).2.numVRegs = f.numVRegs + Carrier.width ⟨s, f.numVRegs⟩ := by
  obtain ⟨v, index, cls⟩ := s
  have hone := Extends.newTemp f cls
  have hnum := Extends.numVRegs_newTemp f cls
  cases cls with
  | fpr =>
    refine ⟨?_, hone.trans (.newTemp _ _), ?_⟩
    · rw [Carrier.load, ← hnum]
      rfl
    · rw [reload, Extends.numVRegs_newTemp, hnum]
      rfl
  | gpr => exact ⟨rfl, hone, hnum⟩
  | gprLow => exact ⟨rfl, hone, hnum⟩

private theorem saveBack_spec (f : Routine) (s : SpillSlot) :
    let f' := (f.newTemp s.cls).2
    (saveBack f' (.virt f.numVRegs) s).1 = Carrier.save ⟨s, f.numVRegs⟩ ∧
      Extends f (saveBack f' (.virt f.numVRegs) s).2 ∧
      (saveBack f' (.virt f.numVRegs) s).2.numVRegs = f.numVRegs + Carrier.width ⟨s, f.numVRegs⟩ := by
  obtain ⟨v, index, cls⟩ := s
  have hone := Extends.newTemp f cls
  have hnum := Extends.numVRegs_newTemp f cls
  cases cls with
  | fpr =>
    refine ⟨?_, hone.trans (.newTemp _ _), ?_⟩
    · rw [Carrier.save, ← hnum]
      rfl
    · rw [saveBack, Extends.numVRegs_newTemp, hnum]
      rfl
  | gpr => exact ⟨rfl, hone, hnum⟩
  | gprLow => exact ⟨rfl, hone, hnum⟩

private def redirectTo (c : Carrier) (r : Reg) : Reg := if r = .virt c.slot.vreg then .virt c.temp else r

private theorem redirectTo_swap {cs : List Carrier} {c : Carrier} (hv : ∀ d ∈ cs, d.slot.vreg ≠ c.slot.vreg)
    (ht : ∀ d ∈ cs, d.temp ≠ c.slot.vreg) (r : Reg) : redirectTo c (Carrier.swap cs r) =
      Carrier.swap (cs ++ [c]) r := by
  by_cases hr : r = .virt c.slot.vreg
  · subst hr
    rw [Carrier.swap_append_self hv, Carrier.swap_of_forall_ne fun d hd he => hv d hd (Reg.virt.inj he).symm]
    exact if_pos rfl
  · rw [Carrier.swap_append_ne hr]
    rcases Carrier.swap_cases cs r with ⟨he, -⟩ | ⟨d, hd, -, he⟩
    · rw [he]
      exact if_neg hr
    · rw [he]
      exact if_neg fun h => ht d hd (Reg.virt.inj h)

/-- A reload puts its temporary in place of the register, in the result as well. -/
private theorem Around.read (h : Around lo p δ sp) (hv : ∀ c ∈ p.loads, c.slot.vreg ≠ s.vreg)
    (ht : ∀ c ∈ p.loads, c.temp ≠ s.vreg) :
    Around lo { p with loads := p.loads ++ [⟨s, sp.routine.numVRegs⟩] } (redirectTo ⟨s, sp.routine.numVRegs⟩ ∘ δ)
        (sp.read s) ∧ Extends sp.routine (sp.read s).routine := by
  obtain ⟨hcode, hgrow, hnum⟩ := reload_spec sp.routine s
  refine ⟨⟨?_, ?_, h.after, ?_⟩, hgrow⟩
  · change sp.before ++ (reload (sp.routine.newTemp s.cls).2 (.virt sp.routine.numVRegs) s).1 = _
    rw [hcode, h.before, Patch.piece, Patch.piece, List.flatMap_append, List.flatMap_singleton]
  · change sp.inst.mapRegs (redirectTo ⟨s, sp.routine.numVRegs⟩) = _
    rw [h.inst, Pseudo.mapRegs_rename]
    exact congrArg (p.op.rename · _) (funext (redirectTo_swap hv ht))
  · change Patch.Fresh _ lo (reload (sp.routine.newTemp s.cls).2 (.virt sp.routine.numVRegs) s).2.numVRegs
    rw [hnum]
    exact h.fresh.load s

/-- A store takes the result from its temporary. -/
private theorem Around.write (h : Around lo p δ sp) {d : Reg} (hd : p.op.dst? = some d) :
    Around lo { p with saves := p.saves ++ [⟨s, sp.routine.numVRegs⟩] } (fun _ => .virt sp.routine.numVRegs)
        (sp.store s) ∧ Extends sp.routine (sp.store s).routine := by
  obtain ⟨hcode, hgrow, hnum⟩ := saveBack_spec sp.routine s
  refine ⟨⟨h.before, ?_, ?_, ?_⟩, hgrow⟩
  · change sp.inst.withDst (.virt sp.routine.numVRegs) = _
    rw [h.inst, Pseudo.withDst_rename hd]
  · change sp.after ++ (saveBack (sp.routine.newTemp s.cls).2 (.virt sp.routine.numVRegs) s).1 = _
    rw [hcode, h.after, Patch.piece, Patch.piece, List.flatMap_append, List.flatMap_singleton]
  · change Patch.Fresh _ lo (saveBack (sp.routine.newTemp s.cls).2 (.virt sp.routine.numVRegs) s).2.numVRegs
    rw [hnum]
    exact h.fresh.save s

private def Patched (lo : Nat) (m : Pseudo) (done : List SpillSlot) (sp : Spilled) : Prop :=
  ∃ p : Patch, p.op = m ∧ Around lo p (Carrier.swap p.saves) sp ∧ p.Covers done

private theorem Patched.step (h : Patched lo m done sp) (hv : s.vreg < lo) (hd : ∀ t ∈ done, t.vreg ≠ s.vreg) :
    Patched lo m (done ++ [s]) (sp.pass m s) ∧ Extends sp.routine (sp.pass m s).routine := by
  obtain ⟨p, rfl, h, hc⟩ := h
  have hload : ∀ c ∈ p.loads, c.slot.vreg ≠ s.vreg := fun c hc' => hd c.slot (hc.loads.slot_mem hc').1
  have hsave : ∀ c ∈ p.saves, c.slot.vreg ≠ s.vreg := fun c hc' => hd c.slot (hc.saves.slot_mem hc').1
  have htemp : ∀ c ∈ p.loads ++ p.saves, c.temp ≠ s.vreg := fun c hc' => by
    have := h.fresh.within c hc'
    omega
  have hread := h.read (s := s) hload fun c hc' => htemp c (List.mem_append_left _ hc')
  simp only [Spilled.pass, List.contains_iff_mem]
  by_cases hw : .virt s.vreg ∈ p.op.defs
  · have hdst := Pseudo.virt_mem_defs.mp hw
    have hself (n d) (hd : p.op.dst? = some d) : Reg.virt n = Carrier.swap (p.saves ++ [⟨s, n⟩]) d := by
      rw [hdst] at hd
      cases hd
      exact (Carrier.swap_append_self (c := ⟨s, n⟩) hsave).symm
    rw [if_pos hw]
    by_cases hu : .virt s.vreg ∈ p.op.uses
    · rw [if_pos hu]
      obtain ⟨hwrite, hgrow⟩ := hread.1.write (s := s) hdst
      exact ⟨⟨⟨p.op, p.loads ++ [⟨s, _⟩], p.saves ++ [⟨s, _⟩]⟩, rfl, hwrite.congr (hself _), hc.loads.add hu hload _,
        hc.saves.add hw hsave _⟩, hread.2.trans hgrow⟩
    · rw [if_neg hu]
      obtain ⟨hwrite, hgrow⟩ := h.write (s := s) hdst
      exact ⟨⟨⟨p.op, p.loads, p.saves ++ [⟨s, _⟩]⟩, rfl, hwrite.congr (hself _), hc.loads.skip hu,
        hc.saves.add hw hsave _⟩, hgrow⟩
  · rw [if_neg hw]
    by_cases hu : .virt s.vreg ∈ p.op.uses
    · rw [if_pos hu]
      refine ⟨⟨⟨p.op, p.loads ++ [⟨s, _⟩], p.saves⟩, rfl, hread.1.congr fun d hd' => ?_, hc.loads.add hu hload _,
        hc.saves.skip hw⟩, hread.2⟩
      -- the result is not the register that was loaded, and the temporaries are none of the old registers
      refine if_neg fun he => ?_
      rcases Carrier.swap_cases p.saves d with ⟨hkeep, -⟩ | ⟨c, hc', -, ht⟩
      · rw [hkeep] at he
        exact hw (Pseudo.virt_mem_defs.mpr (he ▸ hd'))
      · rw [ht] at he
        exact htemp c (List.mem_append_right _ hc') (Reg.virt.inj he)
    · rw [if_neg hu]
      exact ⟨⟨p, rfl, h, hc.loads.skip hu, hc.saves.skip hw⟩, .refl _⟩

private theorem Patched.foldl (rest : List SpillSlot) (h : Patched lo m done sp)
    (hv : ∀ s ∈ rest, s.vreg < lo) (hd : (done ++ rest).Pairwise fun s t => s.vreg ≠ t.vreg) :
    Patched lo m (done ++ rest) (rest.foldl (Spilled.pass m) sp) ∧
      Extends sp.routine (rest.foldl (Spilled.pass m) sp).routine := by
  induction rest generalizing done sp with
  | nil => exact ⟨by simpa using h, .refl _⟩
  | cons s rest ih =>
    have hs : ∀ t ∈ done, t.vreg ≠ s.vreg := fun t ht => (List.pairwise_append.mp hd).2.2 t ht s (by simp)
    obtain ⟨hstep, hgrow⟩ := h.step (hv s (by simp)) hs
    rw [List.append_cons] at hd ⊢
    obtain ⟨hrest, hgrow'⟩ := ih hstep (fun t ht => hv t (by simp [ht])) hd
    exact ⟨hrest, hgrow.trans hgrow'⟩

end Around

structure Distinct (n : Nat) (slots : List SpillSlot) : Prop where
  below : ∀ s ∈ slots, s.vreg < n
  vregs : slots.Pairwise fun s t => s.vreg ≠ t.vreg

variable {slots : List SpillSlot} {rows : List (List Patch)} {f g : Routine} {plan' plan : FramePlan} {vs : List Nat}

theorem Distinct.eq_of_vreg {n : Nat} (h : Distinct n slots) {s t : SpillSlot} (hs : s ∈ slots) (ht : t ∈ slots)
    (he : s.vreg = t.vreg) : s = t := by
  have : Std.Symm fun s t : SpillSlot => s.vreg ≠ t.vreg := ⟨fun _ _ => Ne.symm⟩
  exact Decidable.by_contra fun hne => h.vregs.forall hs ht hne he

def Laid (slots : List SpillSlot) : Nat → List Patch → Nat → Prop
  | lo, [], hi => lo ≤ hi
  | lo, p :: rest, hi => ∃ mid, p.Fresh lo mid ∧ p.Covers slots ∧ Laid slots mid rest hi

section Laid

variable {slots : List SpillSlot} {n lo mid hi : Nat} {ps qs : List Patch} {p : Patch} {c d : Carrier}

theorem Laid.append (h : Laid slots lo ps mid) (h' : Laid slots mid qs hi) : Laid slots lo (ps ++ qs) hi := by
  induction ps generalizing lo with
  | nil =>
    cases qs with
    | nil => exact Nat.le_trans h h'
    | cons q qs =>
      obtain ⟨top, hf, hc, hr⟩ := h'
      exact ⟨top, ⟨Nat.le_trans h hf.le, fun c hc' => ⟨Nat.le_trans h (hf.within c hc').1, (hf.within c hc').2⟩,
        hf.apart⟩, hc, hr⟩
  | cons p ps ih =>
    obtain ⟨top, hf, hc, hr⟩ := h
    exact ⟨top, hf, hc, ih hr⟩

theorem Laid.le (h : Laid slots lo ps hi) : lo ≤ hi := by
  induction ps generalizing lo with
  | nil => exact h
  | cons p ps ih =>
    obtain ⟨top, hf, -, hr⟩ := h
    exact Nat.le_trans hf.le (ih hr)

theorem Laid.mem (h : Laid slots lo ps hi) (hp : p ∈ ps) : p.Fresh lo hi ∧ p.Covers slots := by
  induction ps generalizing lo with
  | nil => cases hp
  | cons q ps ih =>
    obtain ⟨top, hf, hc, hr⟩ := h
    rcases List.mem_cons.mp hp with rfl | hp
    · have := hr.le
      exact ⟨⟨by have := hf.le; omega, fun c hc' => by have := hf.within c hc'; omega, hf.apart⟩, hc⟩
    · obtain ⟨hf', hc'⟩ := ih hr hp
      have := hf.le
      exact ⟨⟨by have := hf'.le; omega, fun c hc' => by have := hf'.within c hc'; omega, hf'.apart⟩, hc'⟩

theorem Patch.Fresh.eq_of_not_apart (h : p.Fresh lo hi) (hc : c ∈ p.loads ++ p.saves) (hd : d ∈ p.loads ++ p.saves)
    (hcd : ¬ c.Apart d) : c = d :=
  Decidable.by_contra fun hne => hcd (h.apart.forall hc hd hne)

/-- No temporary is used for two operations. -/
theorem Laid.eq_of_not_apart (h : Laid slots lo ps hi) {q : Patch} (hp : p ∈ ps) (hq : q ∈ ps)
    (hc : c ∈ p.loads ++ p.saves) (hd : d ∈ q.loads ++ q.saves) (hcd : ¬ c.Apart d) : p = q ∧ c = d := by
  induction ps generalizing lo with
  | nil => cases hp
  | cons x ps ih =>
    obtain ⟨top, hf, -, hr⟩ := h
    rcases List.mem_cons.mp hp with rfl | hp' <;> rcases List.mem_cons.mp hq with rfl | hq'
    · exact ⟨rfl, hf.eq_of_not_apart hc hd hcd⟩
    · exact absurd (.inl (Nat.le_trans (hf.within c hc).2 ((hr.mem hq').1.within d hd).1)) hcd
    · exact absurd (.inr (Nat.le_trans (hf.within d hd).2 ((hr.mem hp').1.within c hc).1)) hcd
    · exact ih hr hp' hq'

end Laid

section Blocks

variable {slots : List SpillSlot} {n : Nat}

variable (hs : Distinct n slots) (f : Routine) (hn : n ≤ f.numVRegs)

include hs hn

theorem patchInst_patch (m : Pseudo) :
    ∃ p : Patch, p.op = m ∧ (patchInst slots f m).1 = p.piece.code ∧
      p.Fresh f.numVRegs (patchInst slots f m).2.numVRegs ∧ p.Covers slots ∧ Extends f (patchInst slots f m).2 := by
  have hstart : Patched f.numVRegs m [] ⟨f, [], m, []⟩ := by
    refine ⟨⟨m, [], []⟩, rfl, ⟨rfl, ?_, rfl, Nat.le_refl _, by simp, .nil⟩, ?_, ?_⟩
    · exact (Pseudo.rename_id m).symm
    · exact ⟨by simp, .nil⟩
    · exact ⟨by simp, .nil⟩
  obtain ⟨⟨p, hop, ha, hc⟩, hgrow⟩ :=
    hstart.foldl slots (fun s hs' => Nat.lt_of_lt_of_le (hs.below s hs') hn) hs.vregs
  refine ⟨p, hop, ?_, ha.fresh, hc, hgrow⟩
  rw [patchInst, Piece.code, ha.before, ha.inst, ha.after]
  rfl

theorem patchBlock_patches (block : List Pseudo) :
    ∃ row : List Patch, row.map Patch.op = block ∧
      (patchBlock slots f block).1 = row.flatMap (fun p => p.piece.code) ∧
      Laid slots f.numVRegs row (patchBlock slots f block).2.numVRegs ∧ Extends f (patchBlock slots f block).2 := by
  induction block generalizing f with
  | nil => exact ⟨[], rfl, rfl, Nat.le_refl _, .refl f⟩
  | cons m rest ih =>
    obtain ⟨p, hop, hcode, hf, hc, hgrow⟩ := patchInst_patch hs f hn m
    obtain ⟨row, hops, hcodes, hlaid, hgrow'⟩ := ih (patchInst slots f m).2 (Nat.le_trans hn hgrow.numVRegs_le)
    refine ⟨p :: row, by rw [List.map_cons, hop, hops], ?_, ⟨_, hf, hc, hlaid⟩, hgrow.trans hgrow'⟩
    rw [patchBlock, List.flatMap_cons, ← hcode, ← hcodes]

theorem patchBlocks_patches (blocks : List (List Pseudo)) :
    ∃ rows : List (List Patch), rows.map (·.map Patch.op) = blocks ∧
      (patchBlocks slots f blocks).1 = rows.map (·.flatMap fun p => p.piece.code) ∧
      Laid slots f.numVRegs rows.flatten (patchBlocks slots f blocks).2.numVRegs ∧
      Extends f (patchBlocks slots f blocks).2 := by
  induction blocks generalizing f with
  | nil => exact ⟨[], rfl, rfl, Nat.le_refl _, .refl f⟩
  | cons block rest ih =>
    obtain ⟨row, hops, hcode, hlaid, hgrow⟩ := patchBlock_patches hs f hn block
    obtain ⟨rows, hops', hcodes, hlaid', hgrow'⟩ := ih (patchBlock slots f block).2 (Nat.le_trans hn hgrow.numVRegs_le)
    refine ⟨row :: rows, by rw [List.map_cons, hops, hops'], ?_, hlaid.append hlaid', hgrow.trans hgrow'⟩
    rw [patchBlocks, List.map_cons, ← hcode, ← hcodes]

end Blocks

def weaveOf (rows : List (List Patch)) : Weave := rows.map (·.map Patch.piece)

structure SpilledInto (slots : List SpillSlot) (rows : List (List Patch)) (f g : Routine) : Prop where
  joins : (weaveOf rows).Joins f g
  laid : Laid slots f.numVRegs rows.flatten g.numVRegs
  grown : Extends f { g with blocks := f.blocks }

def codes (ps : List Patch) : List Pseudo := ps.flatMap fun p => p.piece.code

theorem SpilledInto.code (h : SpilledInto slots rows f g) : g.blocks = rows.map codes := by
  rw [h.joins.result, weaveOf, List.map_map]
  refine List.map_congr_left fun row _ => ?_
  rw [Function.comp_apply, List.flatMap_map]
  rfl

theorem SpilledInto.source (h : SpilledInto slots rows f g) : f.blocks = rows.map (·.map Patch.op) := by
  rw [h.joins.source, weaveOf, List.map_map]
  refine List.map_congr_left fun row _ => ?_
  rw [Function.comp_apply, List.map_map]
  rfl

theorem Patch.Covers.transparent {p : Patch} (h : p.Covers slots) : p.piece.Transparent where
  passes := Pseudo.passes_rename _ _ _
  target := Pseudo.target?_rename _ _ _
  before m hm := by
    obtain ⟨c, -, hm⟩ := List.mem_flatMap.mp hm
    rcases c.mem_load hm with ⟨-, rfl | rfl⟩ | ⟨-, rfl⟩ <;> rfl
  after m hm := by
    obtain ⟨c, -, hm⟩ := List.mem_flatMap.mp hm
    rcases c.mem_save hm with ⟨-, rfl | rfl⟩ | ⟨-, rfl⟩ <;> rfl
  last ht := by
    have ht : p.op.isTerminator = true := ht
    have hnone : p.saves = [] := by
      refine List.eq_nil_iff_forall_not_mem.mpr fun c hc => ?_
      have := (h.saves.slot_mem hc).2
      rw [Pseudo.defs_of_isTerminator ht] at this
      cases this
    rw [Patch.piece, hnone]
    rfl

section Slots

variable {s t : SpillSlot} {slots : List SpillSlot}

theorem mem_insertSlot (h : t ∈ insertSlot s slots) : t = s ∨ t ∈ slots := by
  fun_induction insertSlot s slots <;> simp_all <;> grind

theorem mem_insertSlot_iff (h : ∀ t ∈ slots, t.vreg ≠ s.vreg) : t ∈ insertSlot s slots ↔ t = s ∨ t ∈ slots := by
  refine ⟨mem_insertSlot, fun ht => ?_⟩
  fun_induction insertSlot s slots <;> grind

/-- Entries stay in order of their registers, and in any relation that a new one has to the others. -/
theorem pairwise_insertSlot {P : SpillSlot → SpillSlot → Prop} (hd : slots.Pairwise fun s t => s.vreg < t.vreg ∧ P s t)
    (hs : ∀ t ∈ slots, P s t ∧ P t s) : (insertSlot s slots).Pairwise fun s t => s.vreg < t.vreg ∧ P s t := by
  induction slots with
  | nil => exact List.pairwise_singleton _ _
  | cons t rest ih =>
    have hst := hs t (by simp)
    have hrest : ∀ u ∈ rest, P s u ∧ P u s := fun u hu => hs u (by simp [hu])
    rw [List.pairwise_cons] at hd
    rw [insertSlot]
    split
    · next hlt =>
      refine List.pairwise_cons.mpr ⟨fun u hu => ?_, List.pairwise_cons.mpr hd⟩
      rcases List.mem_cons.mp hu with rfl | hu
      · exact ⟨hlt, hst.1⟩
      · exact ⟨Nat.lt_trans hlt (hd.1 u hu).1, (hrest u hu).1⟩
    · split
      · next heq =>
        refine List.pairwise_cons.mpr ⟨fun u hu => ⟨?_, (hrest u hu).1⟩, hd.2⟩
        rw [heq]
        exact (hd.1 u hu).1
      · refine List.pairwise_cons.mpr ⟨fun u hu => ?_, ih hd.2 hrest⟩
        rcases mem_insertSlot hu with rfl | hu
        · exact ⟨by omega, hst.2⟩
        · exact hd.1 u hu

variable {f : Routine} {vs : List Nat} {plan plan' : FramePlan} {slots' : List SpillSlot}

/-- No register has two slots. -/
theorem addSlots_distinct (h : addSlots f vs slots plan = (.ok slots', plan'))
    (hs : slots.Pairwise fun s t => s.vreg < t.vreg) (hb : ∀ s ∈ slots, s.vreg < f.numVRegs) :
    Distinct f.numVRegs slots' := by
  induction vs generalizing slots plan with
  | nil =>
    cases h
    exact ⟨hb, hs.imp Nat.ne_of_lt⟩
  | cons v rest ih =>
    rw [addSlots] at h
    split at h
    · cases h
    · next cls hcls =>
      split at h
      · cases h
      · have hsorted := pairwise_insertSlot (P := fun _ _ => True) (s := ⟨v, plan.objects.length, cls⟩)
          (hs.imp fun h => ⟨h, trivial⟩) fun _ _ => ⟨trivial, trivial⟩
        refine ih h (hsorted.imp And.left) fun t ht => ?_
        rcases mem_insertSlot ht with rfl | ht
        · exact (List.getElem?_eq_some_iff.mp hcls).1
        · exact hb t ht

def spillObject (f : Routine) (v : Nat) : FrameObject :=
  .local (spillSize ((f.classOf? v).getD .gpr)) wordSize

/-- Slot `s` is for entry `i` of `vs`, where slots are counted from `first`. -/
def SlotFor (f : Routine) (vs : List Nat) (first : Nat) (s : SpillSlot) : Prop :=
  ∃ i, vs[i]? = some s.vreg ∧ s.index = first + i ∧ f.classOf? s.vreg = some s.cls

private theorem slotFor_cons {v first : Nat} : SlotFor f (v :: vs) first s ↔
    (s.vreg = v ∧ s.index = first ∧ f.classOf? v = some s.cls) ∨ SlotFor f vs (first + 1) s := by
  constructor
  · rintro ⟨_ | i, hi, hindex, hcls⟩
    · cases hi
      exact .inl ⟨rfl, hindex, hcls⟩
    · exact .inr ⟨i, hi, by omega, hcls⟩
  · rintro (⟨rfl, hindex, hcls⟩ | ⟨i, hi, hindex, hcls⟩)
    · exact ⟨0, rfl, hindex, hcls⟩
    · exact ⟨i + 1, hi, by omega, hcls⟩

theorem addSlots_listed (hd : vs.Nodup) (hv : ∀ v ∈ vs, (f.classOf? v).isSome = true ∧ f.isTemp v = false)
    (hnew : ∀ s ∈ slots, s.vreg ∉ vs) (plan : FramePlan) :
    ∃ slots', addSlots f vs slots plan =
        (.ok slots', { plan with objects := plan.objects ++ vs.map (spillObject f) }) ∧
      ∀ s, s ∈ slots' ↔ s ∈ slots ∨ SlotFor f vs plan.objects.length s := by
  induction vs generalizing slots plan with
  | nil => exact ⟨slots, by simp [addSlots], by simp [SlotFor]⟩
  | cons v rest ih =>
    obtain ⟨hc, ht⟩ := hv v (by simp)
    obtain ⟨cls, hcls⟩ := Option.isSome_iff_exists.mp hc
    rw [List.nodup_cons] at hd
    have hne : ∀ t ∈ slots, t.vreg ≠ v := fun t ht he => hnew t ht (by simp [he])
    have hnew' : ∀ s ∈ insertSlot ⟨v, plan.objects.length, cls⟩ slots, s.vreg ∉ rest := fun s hs => by
      rcases mem_insertSlot hs with rfl | hs
      · exact hd.1
      · exact fun h => hnew s hs (by simp [h])
    obtain ⟨slots', hadd, hmem⟩ :=
      ih hd.2 (fun u hu => hv u (by simp [hu])) hnew' (plan.addLocal (spillSize cls) wordSize).2
    refine ⟨slots', ?_, fun s => ?_⟩
    · rw [addSlots]
      simp only [hcls, ht]
      refine hadd.trans ?_
      simp [FramePlan.addLocal, FramePlan.push, spillObject, hcls, wordSize]
    · have hone : s = ⟨v, plan.objects.length, cls⟩ ↔
          s.vreg = v ∧ s.index = plan.objects.length ∧ f.classOf? v = some s.cls := by
        rw [hcls, SpillSlot.mk.injEq, Option.some.injEq, eq_comm (a := cls)]
      have hlen : (plan.addLocal (spillSize cls) wordSize).2.objects.length = plan.objects.length + 1 := by
        simp [FramePlan.addLocal, FramePlan.push]
      rw [hmem, mem_insertSlot_iff hne, hone, slotFor_cons, hlen]
      grind

end Slots

/-- Where every register has a slot, spill code is put around each operation. -/
theorem insertSpillCode_patches (h : addSlots f vs [] plan = (.ok slots, plan')) :
    ∃ g rows, insertSpillCode f plan vs = (.ok g, plan') ∧ SpilledInto slots rows f g := by
  have hs : Distinct f.numVRegs slots := addSlots_distinct h .nil (by simp)
  obtain ⟨rows, hops, hcode, hlaid, hgrow⟩ := patchBlocks_patches hs f (Nat.le_refl _) f.blocks
  have hgo : insertSpillCode f plan vs =
      (.ok { (patchBlocks slots f f.blocks).2 with blocks := (patchBlocks slots f f.blocks).1 }, plan') := by
    rw [insertSpillCode_eq, h]
    rfl
  refine ⟨_, rows, hgo, ⟨?_, ?_, fun row hrow p hp => ?_⟩, hlaid, ?_⟩
  · rw [← hops, weaveOf, List.map_map]
    refine List.map_congr_left fun row _ => ?_
    rw [Function.comp_apply, List.map_map]
    rfl
  · rw [hcode, weaveOf, List.map_map]
    exact List.map_congr_left fun row _ => (List.flatMap_map ..).symm
  · obtain ⟨patches, hpatches, rfl⟩ := List.mem_map.mp hrow
    obtain ⟨q, hq, rfl⟩ := List.mem_map.mp hp
    exact (hlaid.mem (List.mem_flatten.mpr ⟨patches, hpatches, hq⟩)).2.transparent
  · refine ⟨?_, hgrow.classes, hgrow.temps⟩
    conv => lhs; rw [hgrow.rest]

theorem insertSpillCode_inv (h : insertSpillCode f plan vs = (.ok g, plan')) :
    ∃ slots rows, addSlots f vs [] plan = (.ok slots, plan') ∧ SpilledInto slots rows f g := by
  cases hadd : addSlots f vs [] plan with
  | mk result plan1 =>
    cases result with
    | error e =>
      rw [insertSpillCode_eq, hadd] at h
      cases h
    | ok slots =>
      obtain ⟨g', rows, hinsert, hinto⟩ := insertSpillCode_patches hadd
      rw [h] at hinsert
      cases hinsert
      exact ⟨slots, rows, rfl, hinto⟩

end Allocation

end DirectPage
