import DirectPage.Proofs.AssignedScope
import DirectPage.Proofs.FrameAddress

/-! How large frames may be.

Byte counts of a frame are unsigned words, and what the stack pointer moves by is a signed one. Selection, spilling and
assignment leave a frame whose layout has exact byte counts, whatever its objects are. Up to half of the address space
those are the counts of the frame that comes out; from there on sums are out of bounds. -/
namespace DirectPage

open Allocation

/-- The routine with its registers assigned and the frame with all it needs, before layout. -/
def Ir.Function.planned (f : Ir.Function) : Checked (Routine × FramePlan) := do
  let selected ← f.selectOperations
  let allocated ← (allocate scanning selected.plan.reserved selected.routine selected.plan).result
  let routine ← allocated.routine.assignAll allocated.assignment.regMap
  return (routine, { allocated.plan with calleeSaved := allocated.assignment.calleeSaved })

namespace Ir.Function

variable {f : Ir.Function} {g : Routine} {p : FramePlan}

theorem framed_eq_planned (f : Ir.Function) : f.framed = do
    let (g, p) ← f.planned
    let frame ← p.finalize
    return (frame, ← g.withFrame frame) := by
  simp only [framed, planned, Allocated.framed, bind_assoc, pure_bind]

/-- The frame was built step by step, and calls take whole words. -/
theorem planned_built (h : f.planned = .ok (g, p)) : ∃ ops, (∀ op ∈ ops, op.IsWhole) ∧ p = .build ops := by
  obtain ⟨sel, hsel, h⟩ := bind_eq_ok.mp h
  obtain ⟨al, hal, h⟩ := bind_eq_ok.mp h
  obtain ⟨routine, -, h⟩ := bind_eq_ok.mp h
  cases h
  obtain ⟨⟨ops, hops, hplan⟩, -⟩ := rounds_keeps (P := fun _ q => ∃ ops, (∀ op ∈ ops, op.IsWhole) ∧ q = .build ops)
    (fun r q vs r' q' hq hinsert => by
      obtain ⟨ops, hops, rfl⟩ := hq
      obtain ⟨slots, rows, hadd, -⟩ := insertSpillCode_inv hinsert
      obtain ⟨sizes, rfl⟩ := addSlots_steps hadd
      refine ⟨ops ++ sizes.map (FrameOp.addLocal · wordSize), fun op hop => ?_, (FramePlan.build_append _ _).symm⟩
      rcases List.mem_append.mp hop with hop | hop
      · exact hops op hop
      · obtain ⟨size, -, rfl⟩ := List.mem_map.mp hop
        trivial)
    (Selection.selectOperations_built hsel).2 hal
  refine ⟨ops ++ [FrameOp.setCalleeSaved al.assignment.calleeSaved], fun op hop => ?_, ?_⟩
  · rcases List.mem_append.mp hop with hop | hop
    · exact hops op hop
    · cases List.mem_singleton.mp hop
      trivial
  · rw [FramePlan.build_append, ← hplan]
    rfl

/-- Up to the plan of the frame nothing is out of bounds but arguments that cannot be counted. -/
theorem planned_total (h : f.verify = .ok ()) : (∃ e, f.planned = .error (.error e)) ∨
    (Selection.Overfull f ∧ f.planned = abort) ∨ ¬Selection.Overfull f ∧ ∃ g p, f.planned = .ok (g, p) := by
  rw [planned]
  cases hsel : f.selectOperations with
  | error e =>
    obtain ⟨rfl, hfull⟩ | ⟨d, rfl, -⟩ := Selection.grounded_selectOperations h e hsel
    · exact .inr (.inl ⟨hfull, rfl⟩)
    · exact .inl ⟨d, rfl⟩
  | ok sel =>
    obtain ⟨al, hal, hcomplete⟩ | ⟨cls, hcls⟩ := allocate_selected hsel
    · rw [ok_bind, hal, ok_bind, hcomplete.assignAll]
      exact .inr (.inr ⟨Selection.selectOperations_counted hsel, _, _, rfl⟩)
    · rw [ok_bind, hcls]
      exact .inl ⟨_, rfl⟩

end Ir.Function

/-- The exact offset of a place from where the stack pointer stands behind the prologue. -/
def Frame.exactOffset (frame : Frame) : FramePlace → Nat
  | .local start => frame.callFrameSize + start
  | .incoming offset => frame.stackSize + wordSize * frame.pushes + incomingArgsOffset + offset
  | .returnAddress => frame.stackSize + wordSize * frame.pushes + wordSize

section Resolve

private theorem toInt_ofNat_add {n : Nat} {extra : Word} (hn : n < 2147483648)
    (hfits : (n : Int) + extra.toInt ≤ 2147483647) : (BitVec.ofNat 32 n + extra).toInt = n + extra.toInt := by
  have hlow := BitVec.le_toInt extra
  have hint : (BitVec.ofNat 32 n).toInt = n := by
    rw [BitVec.toInt_ofNat', Int.bmod_eq_of_le] <;> omega
  rw [BitVec.toInt_add, hint, Int.bmod_eq_of_le] <;> omega

variable {frame : Frame} (h : ∀ place, frame.offset place = unsigned32 (frame.exactOffset place)) (i : Nat)
  (extra : Word)
include h

/-- Offsets are exact below half of the address space. -/
theorem Frame.resolve_eq_ok_iff (w : Word) : frame.resolve i extra = .ok (frame.base, w) ↔
    ∃ n, frame.places[i]?.map frame.exactOffset = some n ∧ n < 2147483648 ∧ w.toInt = n + extra.toInt := by
  constructor
  · intro hw
    obtain ⟨place, n, hplace, hn, hlt⟩ := offset_of_resolve hw
    obtain rfl := unsigned32_eq_ok ((h place).symm.trans hn)
    refine ⟨_, by rw [hplace]; rfl, hlt, ?_⟩
    rw [resolve_of_offset hplace hn hlt] at hw
    split at hw
    · next hfits =>
      cases hw
      exact toInt_ofNat_add hlt hfits
    · cases hw
  · rintro ⟨n, hn, hlt, hw⟩
    obtain ⟨place, hplace, rfl⟩ := Option.map_eq_some_iff.mp hn
    have hfits : (frame.exactOffset place : Int) + extra.toInt ≤ 2147483647 := by
      have := w.toInt_lt
      omega
    rw [resolve_of_offset hplace ((h place).trans (unsigned32_of_lt (by omega))) hlt, if_pos hfits,
      BitVec.eq_of_toInt_eq (hw.trans (toInt_ofNat_add hlt hfits).symm)]

/-- Offsets past the address space stop the compilation. -/
theorem Frame.resolve_eq_abort_iff : frame.resolve i extra = abort ↔
    ∃ n, frame.places[i]?.map frame.exactOffset = some n ∧ 4294967296 ≤ n := by
  cases hplace : frame.places[i]? with
  | none =>
    rw [resolve, hplace]
    constructor
    · rintro ⟨⟩
    · rintro ⟨n, ⟨⟩, -⟩
  | some place =>
    rw [Option.map_some]
    by_cases hlt : frame.exactOffset place < 4294967296
    · refine ⟨fun he => ?_, by rintro ⟨n, ⟨⟩, hle⟩; omega⟩
      rw [resolve, hplace, orFail, ok_bind, h, unsigned32_of_lt hlt, ok_bind] at he
      split at he
      · cases he
      · cases htotal : Word.ofSigned? ((frame.exactOffset place : Int) + extra.toInt) <;> rw [htotal] at he <;> cases he
    · refine ⟨fun _ => ⟨_, rfl, by omega⟩, fun _ => ?_⟩
      rw [resolve, hplace, orFail, ok_bind, h, unsigned32, if_neg hlt]
      rfl

end Resolve

namespace FramePlan

def exactOffset? (p : FramePlan) (i : Nat) : Option Nat := (exactPlaces 0 p.objects)[i]?.map p.layout.exactOffset

/-- The exact layout serves as a frame: the stack pointer moves by its size, and an object is found at its offset as
long as that is a signed word. Only the sum for an incoming argument can be out of bounds. -/
structure Exact (p : FramePlan) : Prop where
  enters : ∀ delta : Word, .spAdjust delta ∈ p.layout.prologue → delta.toInt = -(p.stackBytes : Int)
  leaves : ∀ delta : Word, .spAdjust delta ∈ p.layout.epilogue → delta.toInt = p.stackBytes
  resolves : ∀ i (extra w : Word), p.layout.resolve i extra = .ok (p.layout.base, w) ↔
    ∃ n, p.exactOffset? i = some n ∧ n < 2147483648 ∧ w.toInt = n + extra.toInt
  aborts : ∀ i extra, p.layout.resolve i extra = abort ↔ ∃ n, p.exactOffset? i = some n ∧ 4294967296 ≤ n

section Exact

variable {p : FramePlan} (h : p.stackBytes < 2147483648)
include h

private theorem toInt_stackBytes : (BitVec.ofNat 32 p.stackBytes).toInt = p.stackBytes ∧
    (-BitVec.ofNat 32 p.stackBytes).toInt = -(p.stackBytes : Int) := by
  constructor <;> simp only [BitVec.toInt, BitVec.toNat_neg, BitVec.toNat_ofNat] <;> omega

private theorem entryBytes_lt : p.entryBytes + wordSize < 4294967296 := by
  have hsaved := (savedRegisters_spec p.needsFrameBase p.calleeSaved).2
  have hall : DirectPage.calleeSaved.length ≤ 64 := by decide
  have hbase := p.needsFrameBase.toNat_le
  rw [entryBytes, wordSize]
  omega

private theorem offset_layout (place : FramePlace) :
    p.layout.offset place = unsigned32 (p.layout.exactOffset place) := by
  have hentry := entryBytes_lt h
  have hlt : p.layout.stackSize + wordSize * p.layout.pushes < 4294967296 :=
    Nat.lt_of_le_of_lt (Nat.le_add_right _ _) hentry
  rw [Frame.offset, unsigned32_of_lt hlt, ok_bind]
  cases place <;> rfl

theorem exact_of_lt : p.Exact := by
  obtain ⟨hpos, hneg⟩ := toInt_stackBytes h
  constructor
  case enters =>
    intro delta hdelta
    obtain ⟨-, rfl⟩ : 0 < p.layout.stackSize ∧ delta = -BitVec.ofNat 32 p.layout.stackSize := by
      simpa [Frame.prologue_eq] using hdelta
    exact hneg
  case leaves =>
    intro delta hdelta
    obtain ⟨-, rfl⟩ : 0 < p.layout.stackSize ∧ delta = BitVec.ofNat 32 p.layout.stackSize := by
      simpa [Frame.epilogue_eq] using hdelta
    exact hpos
  case resolves => exact Frame.resolve_eq_ok_iff (offset_layout h)
  case aborts => exact Frame.resolve_eq_abort_iff (offset_layout h)

end Exact

end FramePlan

namespace Ir.Function

variable {f : Ir.Function} {g : Routine} {p : FramePlan}

/-- Frames come out as planned, except for two ranges of sizes. -/
theorem framed_of_planned (h : f.planned = .ok (g, p)) : Prod.fst <$> f.framed =
    if p.stackBytes = 2147483648 ∨ 4294967296 ≤ p.stackBytes then abort else .ok p.layout := by
  obtain ⟨ops, -, hops⟩ := planned_built h
  have hfinal := FramePlan.finalize_eq (p := p) (hops ▸ (FramePlan.build_sound ops).aligned)
  rw [framed_eq_planned, h, ok_bind]
  dsimp only
  rw [hfinal]
  by_cases hlt : p.stackBytes < 4294967296
  · rw [if_pos hlt, ok_bind, Routine.withFrame, Frame.entryCode]
    by_cases hhalf : p.stackBytes = 2147483648
    · rw [if_pos (show p.layout.stackSize = 2147483648 from hhalf), if_pos (.inl hhalf)]
      rfl
    · rw [if_neg (show p.layout.stackSize ≠ 2147483648 from hhalf), if_neg (by omega)]
      rfl
  · rw [if_neg hlt, if_pos (by omega)]
    rfl

theorem compile_aborts (h : f.planned = .ok (g, p)) (hout : p.stackBytes = 2147483648 ∨ 4294967296 ≤ p.stackBytes)
    (options : Options) : f.compile options = abort := by
  have hframed := framed_of_planned h
  rw [if_pos hout] at hframed
  rw [compile_eq_framed]
  cases hx : f.framed with
  | error e =>
    rw [hx] at hframed
    cases hframed
    rfl
  | ok framed =>
    rw [hx] at hframed
    cases hframed

/-- Up to its layout the frame of a function that passed its checks is out of no bounds, unless the arguments that it
takes or passes cannot be counted. A frame of less than half of the address space is then laid out and used in exact
byte counts. Compilation aborts if the frame has just half of it, or more than all. -/
theorem planned_exact (h : f.verify = .ok ()) (options : Options) :
    (∃ e, f.planned = .error (.error e) ∧ f.compile options = .error (.error e)) ∨
    (Selection.Overfull f ∧ f.planned = abort ∧ f.compile options = abort) ∨
    ¬Selection.Overfull f ∧ ∃ g p, f.planned = .ok (g, p) ∧
      (Prod.fst <$> f.framed =
        if p.stackBytes = 2147483648 ∨ 4294967296 ≤ p.stackBytes then abort else .ok p.layout) ∧
      (p.stackBytes = 2147483648 ∨ 4294967296 ≤ p.stackBytes → f.compile options = abort) ∧
      (p.stackBytes < 2147483648 → p.Exact) := by
  obtain ⟨e, he⟩ | ⟨hfull, he⟩ | ⟨hcounted, g, p, hp⟩ := planned_total h
  · refine .inl ⟨e, he, ?_⟩
    rw [compile_eq_framed, framed_eq_planned, he]
    rfl
  · refine .inr (.inl ⟨hfull, he, ?_⟩)
    rw [compile_eq_framed, framed_eq_planned, he]
    rfl
  · exact .inr (.inr ⟨hcounted, g, p, hp, framed_of_planned hp, fun hout => compile_aborts hp hout options,
      FramePlan.exact_of_lt⟩)

end Ir.Function

section OneSlot

def oneSlot (size align : Nat) : Ir.Function where
  name := "oneSlot"
  blocks := [⟨[], .ret []⟩]
  slots := [⟨size, align⟩]

def oneSlotOps : Routine where
  name := "oneSlot"
  blocks := [[.ret []]]

def oneSlotPlan (size align : Nat) : FramePlan := { objects := [.local size (max align 1)] }

section Planned

variable (size align : Nat)

private theorem select_oneSlot : (oneSlot size align).selectOperations = .ok ⟨oneSlotOps, oneSlotPlan size align⟩ := rfl

private theorem intervals_oneSlot : intervals oneSlotOps = [] := intervals_eq (by decide +kernel) .nil

theorem planned_oneSlot : (oneSlot size align).planned = .ok (oneSlotOps, oneSlotPlan size align) := by
  have hsaved : calleeSavedIn [] = [] := by decide +kernel
  rw [Ir.Function.planned, select_oneSlot, ok_bind, allocate_of_scan (by decide +kernel) intervals_oneSlot rfl, hsaved]
  rfl

end Planned

/-- The largest frame below half of the address space. -/
theorem planned_exact_oneSlot : (oneSlot 2147483640 4).verify = .ok () ∧ ∃ g p,
    (oneSlot 2147483640 4).planned = .ok (g, p) ∧ p.stackBytes = 2147483644 ∧
      Prod.fst <$> (oneSlot 2147483640 4).framed = .ok p.layout ∧ p.Exact := by
  have hverify : (oneSlot 2147483640 4).verify = .ok () := rfl
  have hplanned := planned_oneSlot 2147483640 4
  obtain ⟨e, he, -⟩ | ⟨-, he, -⟩ | ⟨-, g, p, hp, hframed, -, hexact⟩ := Ir.Function.planned_exact hverify {}
  · cases hplanned.symm.trans he
  · cases hplanned.symm.trans he
  · obtain ⟨rfl, rfl⟩ := Prod.mk.inj (Except.ok.inj (hplanned.symm.trans hp))
    have hbytes : (oneSlotPlan 2147483640 4).stackBytes = 2147483644 := by decide
    rw [hbytes] at hframed hexact
    exact ⟨hverify, _, _, hp, hbytes, hframed, hexact (by decide)⟩

/-- One byte more takes half of the address space, and the largest slot more than all of it. Between them a frame comes
out that is larger than any signed word. -/
theorem oneSlot_out_of_bounds :
    (oneSlot 2147483641 4).verify = .ok () ∧ (oneSlot 2147483641 4).compile {} = abort ∧
    (oneSlot 4294967295 4).verify = .ok () ∧ (oneSlot 4294967295 4).compile {} = abort ∧
    (oneSlot 2147483648 4).verify = .ok () ∧
      ∃ e, (oneSlot 2147483648 4).compile {} = .ok e ∧ e.stackSize = 2147483652 := by
  refine ⟨rfl, Ir.Function.compile_aborts (planned_oneSlot _ _) (.inl (by decide)) {}, rfl,
    Ir.Function.compile_aborts (planned_oneSlot _ _) (.inr (by decide)) {}, rfl, ?_⟩
  have hframed : (oneSlot 2147483648 4).framed = .ok ((oneSlotPlan 2147483648 4).layout, { oneSlotOps with
      blocks := [[.spAdjust (-2147483652#32), .spAdjust 2147483652#32, .ret []]] }) :=
    framed_of_scan (select_oneSlot _ _) (by decide +kernel) intervals_oneSlot rfl (by decide +kernel)
  obtain ⟨e, he, hsize⟩ := compile_of_framed hframed {} (·.stackSize == 2147483652) (by decide +kernel)
  exact ⟨e, he, beq_iff_eq.mp hsize⟩

end OneSlot

end DirectPage
