import DirectPage.Proofs.FrameArithmetic

/-! Where local objects lie with respect to their alignment.

Layout rounds the offset of an object up to its alignment, but counts that offset from behind the arguments of calls.
Their size is a multiple of a word and of nothing else. -/
namespace DirectPage

namespace FramePlan

variable {align size i : Nat} {ops : List FrameOp} {p : FramePlan}

theorem dvd_exactPlaces {objects : List FrameObject} {top start : Nat} (hi : objects[i]? = some (.local size align))
    (hstart : (exactPlaces top objects)[i]? = some (.local start)) : align ∣ start := by
  induction objects generalizing i top with
  | nil => cases hi
  | cons o rest ih =>
    cases i with
    | zero =>
      cases hi
      cases hstart
      exact Nat.dvd_mul_left _ _
    | succ i => cases o <;> exact ih hi hstart

private theorem dvd_max {d m n : Nat} (hm : d ∣ m) (hn : d ∣ n) : d ∣ max m n := by
  rw [Nat.max_def]
  split <;> assumption

theorem dvd_maxCallFrame (hops : ∀ op ∈ ops, op.IsWhole) (hp : wordSize ∣ p.maxCallFrame) :
    wordSize ∣ (p.steps ops).maxCallFrame := by
  induction ops generalizing p with
  | nil => exact hp
  | cons op ops ih =>
    obtain ⟨hop, hops⟩ := List.forall_mem_cons.mp hops
    refine ih hops ?_
    cases op with
    | noteCall size => exact dvd_max hp hop
    | returnAddressIndex =>
      simp only [FrameOp.apply, returnAddressIndex]
      split <;> exact hp
    | _ => exact hp

theorem dvd_callBytes (hops : ∀ op ∈ ops, op.IsWhole) : wordSize ∣ (build ops).callBytes := by
  rw [callBytes]
  split
  · exact dvd_max (dvd_maxCallFrame hops (Nat.dvd_zero _)) (by decide)
  · decide

/-- Behind the prologue a local object lies at a multiple of its alignment above the arguments of calls. -/
theorem address_layout (hp : p.Sound) {s t : StackRegs} (hrun : StackRun p.layout p.layout.prologue s t)
    (hi : p.objects[i]? = some (.local size align)) {a : Word} (ha : p.layout.address? t i 0#32 = some a) :
    ∃ start, align ∣ start ∧ a = t.sp + BitVec.ofNat 32 (p.callBytes + start) := by
  obtain ⟨start, hstart, -⟩ := (laid_exactPlaces hp.aligned 0).locals i size align hi
  refine ⟨start, dvd_exactPlaces hi hstart, ?_⟩
  cases hres : p.layout.resolve i 0#32 with
  | error e =>
    rw [Frame.address?, hres] at ha
    cases ha
  | ok r =>
    obtain ⟨place, n, hplace, hn, hlt⟩ := Frame.offset_of_resolve hres
    rw [Frame.address?_of_offset hrun hplace hn hlt] at ha
    obtain rfl : .local start = place := Option.some.inj (hstart.symm.trans hplace)
    obtain ⟨top, -, hn⟩ := bind_eq_ok.mp hn
    rw [← Option.some.inj ha, unsigned32_eq_ok hn]
    rfl

end FramePlan

/-- A local object of a frame that lowering built lies on its alignment, behind a prologue that left the stack pointer
there, if and only if the bytes for the arguments of calls are a multiple of it. For words and less they are. -/
theorem Ir.Function.planned_local_aligned {f : Ir.Function} {g : Routine} {p : FramePlan} (hp : f.planned = .ok (g, p))
    {frame : Frame} (hframe : p.finalize = .ok frame) {s t : StackRegs} (hrun : StackRun frame frame.prologue s t)
    {i size k : Nat} (hi : p.objects[i]? = some (.local size (2 ^ k))) (hk : k < 32) (hsp : 2 ^ k ∣ t.sp.toNat)
    {a : Word} (ha : frame.address? t i 0#32 = some a) :
    (2 ^ k ∣ a.toNat ↔ 2 ^ k ∣ frame.callFrameSize) ∧ (k ≤ 2 → 2 ^ k ∣ a.toNat) := by
  obtain ⟨ops, hops, rfl⟩ := planned_built hp
  obtain rfl := FramePlan.finalize_eq_ok hframe
  obtain ⟨start, hstart, rfl⟩ := FramePlan.address_layout (FramePlan.build_sound ops) hrun hi ha
  have hall : 2 ^ k ∣ 2 ^ 32 := Nat.pow_dvd_pow 2 (Nat.le_of_lt hk)
  have hiff : 2 ^ k ∣ (t.sp + BitVec.ofNat 32 ((FramePlan.build ops).callBytes + start)).toNat ↔
      2 ^ k ∣ (FramePlan.build ops).callBytes := by
    rw [BitVec.toNat_add, BitVec.toNat_ofNat, Nat.add_mod_mod, Nat.dvd_mod_iff hall, Nat.dvd_add_right hsp,
      Nat.dvd_add_left hstart]
  refine ⟨hiff, fun hword => hiff.mpr ?_⟩
  exact Nat.dvd_trans (Nat.pow_dvd_pow 2 hword) (FramePlan.dvd_callBytes hops)

section OneSlot

def oneSlotFrame : Frame :=
  { places := [.local 0], callFrameSize := 4, stackSize := 8, frameBase := false, reservedCallFrame := true,
    saved := [] }

private theorem run_oneSlotFrame : StackRun oneSlotFrame oneSlotFrame.prologue ⟨4096#32, 0#32⟩ ⟨4088#32, 0#32⟩ :=
  .cons (t := ⟨4088#32, 0#32⟩) ⟨fun w hw => by cases hw; rfl, nofun, fun _ _ => rfl⟩ .nil

/-- A slot on a word boundary. -/
theorem planned_local_aligned_word :
    (oneSlot 4 4).planned = .ok (oneSlotOps, oneSlotPlan 4 4) ∧ (oneSlotPlan 4 4).finalize = .ok oneSlotFrame ∧
    StackRun oneSlotFrame oneSlotFrame.prologue ⟨4096#32, 0#32⟩ ⟨4088#32, 0#32⟩ ∧
    (oneSlotPlan 4 4).objects[0]? = some (.local 4 (2 ^ 2)) ∧ 2 ^ 2 ∣ (4088#32).toNat ∧
    oneSlotFrame.address? ⟨4088#32, 0#32⟩ 0 0#32 = some 4092#32 ∧ 2 ^ 2 ∣ (4092#32).toNat := by
  have hframe : (oneSlotPlan 4 4).finalize = .ok oneSlotFrame := by decide +kernel
  have hi : (oneSlotPlan 4 4).objects[0]? = some (.local 4 (2 ^ 2)) := rfl
  have haddress : oneSlotFrame.address? ⟨4088#32, 0#32⟩ 0 0#32 = some 4092#32 := rfl
  have haligned := Ir.Function.planned_local_aligned (planned_oneSlot 4 4) hframe run_oneSlotFrame hi (by decide)
    (by decide) haddress
  exact ⟨planned_oneSlot 4 4, hframe, run_oneSlotFrame, hi, by decide, haddress, haligned.2 (Nat.le_refl 2)⟩

/-- A slot on a boundary of two words, which lies between two of them though the stack pointer does not. -/
theorem oneSlot_misaligned :
    (oneSlot 4 8).verify = .ok () ∧ (oneSlot 4 8).planned = .ok (oneSlotOps, oneSlotPlan 4 8) ∧
    (oneSlotPlan 4 8).finalize = .ok oneSlotFrame ∧
    StackRun oneSlotFrame oneSlotFrame.prologue ⟨4096#32, 0#32⟩ ⟨4088#32, 0#32⟩ ∧
    (oneSlotPlan 4 8).objects[0]? = some (.local 4 (2 ^ 3)) ∧ 2 ^ 3 ∣ (4088#32).toNat ∧
    oneSlotFrame.address? ⟨4088#32, 0#32⟩ 0 0#32 = some 4092#32 ∧ ¬ 2 ^ 3 ∣ (4092#32).toNat :=
  ⟨rfl, planned_oneSlot 4 8, by decide +kernel, run_oneSlotFrame, rfl, by decide, rfl, by decide⟩

end OneSlot

end DirectPage
