import DirectPage.Proofs.Emission
import DirectPage.Proofs.StackCode

/-! The stack pointer along a run of pseudo-operations.

The prologue moves it down and the epilogue moves it up again by as much. In between it stays, or
the frame base keeps where it was. -/
namespace DirectPage

open Selection (BodyOp)

structure StackRegs where
  sp : Word
  base : Word

/-- The stack pointer behind an operation, unless the operation may leave it anywhere. A call is
over when the function called has returned. -/
def StackRegs.spAfter? (s : StackRegs) (frame : Frame) : Pseudo → Option Word
  | .push _ => some (s.sp - BitVec.ofNat 32 wordSize)
  | .pop _ => some (s.sp + BitVec.ofNat 32 wordSize)
  | .spAdjust delta => some (s.sp + delta)
  | .restoreSp => some s.base
  | .callStackDown size => some (s.sp - BitVec.ofNat 32 ((frame.callAdjustment? size).getD 0))
  | .callStackUp size => some (s.sp + BitVec.ofNat 32 ((frame.callAdjustment? size).getD 0))
  | .dynAlloc .. => none
  | _ => some s.sp

structure StackStep (frame : Frame) (m : Pseudo) (s t : StackRegs) : Prop where
  sp : ∀ w, s.spAfter? frame m = some w → t.sp = w
  set : m = .setFrameBase → t.base = s.sp
  base : m ≠ .setFrameBase → .phys frameBase ∉ m.defs → t.base = s.base

inductive StackRun (frame : Frame) : List Pseudo → StackRegs → StackRegs → Prop
  | nil {s : StackRegs} : StackRun frame [] s s
  | cons {m : Pseudo} {ms : List Pseudo} {s t u : StackRegs} :
      StackStep frame m s t → StackRun frame ms t u → StackRun frame (m :: ms) s u

section Stack

variable {frame : Frame} {ms ms' : List Pseudo} {s t u : StackRegs} {varSized : Bool} {rs : List Register}

theorem StackStep.total (frame : Frame) (m : Pseudo) (s : StackRegs) : ∃ t, StackStep frame m s t :=
  ⟨⟨(s.spAfter? frame m).getD s.sp, if m = .setFrameBase then s.sp else s.base⟩, fun w hw => by rw [hw]; rfl,
    fun h => if_pos h, fun h _ => if_neg h⟩

theorem StackRun.total (frame : Frame) (ms : List Pseudo) (s : StackRegs) : ∃ t, StackRun frame ms s t := by
  induction ms generalizing s with
  | nil => exact ⟨s, .nil⟩
  | cons m ms ih =>
    obtain ⟨t, ht⟩ := StackStep.total frame m s
    obtain ⟨u, hu⟩ := ih t
    exact ⟨u, .cons ht hu⟩

/-- A run of two parts is a run of the first and then one of the second. -/
theorem StackRun.append_inv (h : StackRun frame (ms ++ ms') s u) :
    ∃ t, StackRun frame ms s t ∧ StackRun frame ms' t u := by
  induction ms generalizing s with
  | nil => exact ⟨s, .nil, h⟩
  | cons m ms ih =>
    cases h with
    | cons hstep h =>
      obtain ⟨t, h1, h2⟩ := ih h
      exact ⟨t, .cons hstep h1, h2⟩

/-- Operations that leave the frame alone keep the frame base if there is one, and else the
stack pointer. -/
theorem StackStep.body {m : Pseudo} (hm : BodyOp (· ≠ 0) frame.frameBase varSized m)
    (hcall : frame.reservedCallFrame = !varSized) (hvar : varSized = true → frame.frameBase = true)
    (h : StackStep frame m s t) :
    (frame.frameBase = true → t.base = s.base) ∧ (frame.frameBase = false → t.sp = s.sp) := by
  refine ⟨fun hb => h.base (fun he => ?_) (hm.base hb), fun hb => h.sp s.sp ?_⟩
  · have := hm.frameOp
    rw [he] at this
    cases this
  · have hfixed : varSized = false := by
      cases varSized with
      | false => rfl
      | true =>
        rw [hvar rfl] at hb
        cases hb
    have hstill (size : Nat) : (frame.callAdjustment? size).getD 0 = 0 := by
      rw [Frame.callAdjustment?, hcall, hfixed]
      rfl
    cases m with
    | dynAlloc dst size align =>
      have := hm.dyn rfl
      rw [hfixed] at this
      cases this
    | callStackDown size =>
      change some (s.sp - BitVec.ofNat 32 ((frame.callAdjustment? size).getD 0)) = some s.sp
      rw [hstill, BitVec.sub_zero]
    | callStackUp size =>
      change some (s.sp + BitVec.ofNat 32 ((frame.callAdjustment? size).getD 0)) = some s.sp
      rw [hstill, BitVec.add_zero]
    | push _ | pop _ | spAdjust _ | restoreSp => cases hm.frameOp
    | _ => rfl

/-- A body keeps what its frame counts from. -/
theorem StackRun.body (hms : ∀ m ∈ ms, BodyOp (· ≠ 0) frame.frameBase varSized m)
    (hcall : frame.reservedCallFrame = !varSized) (hvar : varSized = true → frame.frameBase = true)
    (h : StackRun frame ms s t) :
    (frame.frameBase = true → t.base = s.base) ∧ (frame.frameBase = false → t.sp = s.sp) := by
  induction h with
  | nil => exact ⟨fun _ => rfl, fun _ => rfl⟩
  | cons hstep _ ih =>
    obtain ⟨hbase, hsp⟩ := hstep.body (hms _ (by simp)) hcall hvar
    obtain ⟨hbase', hsp'⟩ := ih fun m hm => hms m (by simp [hm])
    exact ⟨fun hb => (hbase' hb).trans (hbase hb), fun hb => (hsp' hb).trans (hsp hb)⟩

def Frame.depth (frame : Frame) : Word := BitVec.ofNat 32 (wordSize * frame.pushes + frame.stackSize)

private theorem ofNat_mul_succ (n : Nat) :
    BitVec.ofNat 32 (wordSize * (n + 1)) = BitVec.ofNat 32 (wordSize * n) + BitVec.ofNat 32 wordSize := by
  rw [Nat.mul_succ, BitVec.ofNat_add]

theorem StackRun.pushes (h : StackRun frame (rs.map .push) s t) :
    t.sp = s.sp - BitVec.ofNat 32 (wordSize * rs.length) := by
  induction rs generalizing s with
  | nil =>
    cases h
    simp
  | cons r rs ih =>
    cases h with
    | cons hstep h =>
      rw [ih h, hstep.sp _ rfl, List.length_cons, ofNat_mul_succ]
      grind

theorem StackRun.pops (h : StackRun frame (rs.map .pop) s t) :
    t.sp = s.sp + BitVec.ofNat 32 (wordSize * rs.length) := by
  induction rs generalizing s with
  | nil =>
    cases h
    simp
  | cons r rs ih =>
    cases h with
    | cons hstep h =>
      rw [ih h, hstep.sp _ rfl, List.length_cons, ofNat_mul_succ]
      grind

/-- The register of a frame base is saved and restored only where there is one. -/
private theorem StackRun.base {op : Register → Pseudo}
    (h : StackRun frame (if frame.frameBase then [op frameBase] else []) s t) :
    ∃ rs : List Register, rs.length = frame.frameBase.toNat ∧ StackRun frame (rs.map op) s t := by
  cases hb : frame.frameBase with
  | false =>
    rw [hb] at h
    exact ⟨[], rfl, h⟩
  | true =>
    rw [hb] at h
    exact ⟨[frameBase], rfl, h⟩

/-- Code that moves the stack pointer only where there is something to move it over. -/
private theorem StackRun.adjust {delta : Word} {size : Nat} (hdelta : size = 0 → delta = 0#32)
    (h : StackRun frame (if 0 < size then [.spAdjust delta] else []) s t) : t.sp = s.sp + delta ∧ t.base = s.base := by
  split at h
  · cases h with
    | cons hstep h =>
      cases h
      exact ⟨hstep.sp _ rfl, hstep.base (by simp) (by simp [Pseudo.defs, Pseudo.dst?])⟩
  · cases h
    rw [hdelta (by omega), BitVec.add_zero]
    exact ⟨rfl, rfl⟩

/-- The prologue goes down by the depth of the frame. -/
theorem StackRun.prologue (h : StackRun frame frame.prologue s t) :
    t.sp = s.sp - frame.depth ∧ (frame.frameBase = true → t.base = t.sp) := by
  rw [Frame.prologue] at h
  obtain ⟨c, h, hset⟩ := h.append_inv
  obtain ⟨b, h, hadjust⟩ := h.append_inv
  obtain ⟨a, hbase, hsaved⟩ := h.append_inv
  obtain ⟨hdown, -⟩ := hadjust.adjust fun hz => by rw [hz]; rfl
  obtain ⟨bases, hlength, hbase⟩ := hbase.base
  have hlast : t.sp = c.sp ∧ (frame.frameBase = true → t.base = c.sp) := by
    cases hb : frame.frameBase with
    | false =>
      rw [hb] at hset
      cases hset
      exact ⟨rfl, fun h => by cases h⟩
    | true =>
      rw [hb] at hset
      cases hset with
      | cons hstep h =>
        cases h
        exact ⟨hstep.sp _ rfl, fun _ => hstep.set rfl⟩
  refine ⟨?_, fun hb => (hlast.2 hb).trans hlast.1.symm⟩
  rw [hlast.1, hdown, hsaved.pushes, hbase.pushes, hlength, Frame.depth, Frame.pushes, Nat.mul_add, BitVec.ofNat_add,
    BitVec.ofNat_add]
  grind

/-- The epilogue goes up by the depth, from the frame base where there is one. -/
theorem StackRun.epilogue (h : StackRun frame frame.epilogue s t) :
    t.sp = (if frame.frameBase then s.base else s.sp) + frame.depth := by
  rw [Frame.epilogue] at h
  obtain ⟨c, h, hbase⟩ := h.append_inv
  obtain ⟨b, h, hsaved⟩ := h.append_inv
  obtain ⟨a, hrestore, hadjust⟩ := h.append_inv
  obtain ⟨hup, -⟩ := hadjust.adjust fun hz => by rw [hz]
  have hfirst : a.sp = if frame.frameBase then s.base else s.sp := by
    cases hb : frame.frameBase with
    | false =>
      rw [hb] at hrestore
      cases hrestore
      rfl
    | true =>
      rw [hb] at hrestore
      cases hrestore with
      | cons hstep h =>
        cases h
        exact hstep.sp _ rfl
  obtain ⟨bases, hlength, hbase⟩ := hbase.base
  rw [hbase.pops, hlength, hsaved.pops, List.length_reverse, hup, hfirst, Frame.depth, Frame.pushes, Nat.mul_add,
    BitVec.ofNat_add, BitVec.ofNat_add]
  grind

end Stack

def Machine.stackRegs (m : Machine) : StackRegs := ⟨m.sp, m.regs (.phys frameBase)⟩

namespace Expansion

open Machine

variable {m : Machine} {frame : Frame} {is : List Instruction} {n : UInt8} {op : Pseudo}

theorem setFrameBase_stackStep (h : setFrameBase = .ok is) :
    m.Does is fun m' => StackStep frame .setFrameBase m.stackRegs m'.stackRegs := by
  cases h
  refine .cons rfl (.cons (advance_stx _ _) (.nil ⟨fun w hw => Option.some.inj hw, fun _ => ?_, ?_⟩))
  · exact Memory.word_setWord_self (show 116 + 4 ≤ memorySize by decide) _
  · exact fun hne => absurd rfl hne

theorem restoreSp_stackStep (h : restoreSp = .ok is) :
    m.Does is fun m' => StackStep frame .restoreSp m.stackRegs m'.stackRegs := by
  cases h
  exact .cons (advance_ldx _ _) (.cons rfl (.nil ⟨fun w hw => Option.some.inj hw, by simp, fun _ _ => rfl⟩))

private theorem spAdjust_stackRegs (delta : Word) (m : Machine) :
    m.Does (spAdjust delta) fun m' => m'.stackRegs = ⟨m.sp + delta, m.stackRegs.base⟩ :=
  (spAdjust_does delta m).mono fun m' ⟨hmem, hsp⟩ => by
    change StackRegs.mk m'.sp (m'.memory.word (4 * 29)) = ⟨m.sp + delta, m.memory.word (4 * 29)⟩
    rw [hsp, hmem]

/-- A call moves the stack pointer by its bytes, unless they are part of the frame. -/
theorem callStack_stackRegs {size : Nat} {down : Bool} (h : callStack frame size down = .ok is) :
    m.Does is fun m' => m'.stackRegs = ⟨if down then m.sp - BitVec.ofNat 32 ((frame.callAdjustment? size).getD 0)
      else m.sp + BitVec.ofNat 32 ((frame.callAdjustment? size).getD 0), m.stackRegs.base⟩ := by
  rw [callStack] at h
  cases hadj : frame.callAdjustment? size with
  | none =>
    rw [hadj] at h
    cases h
    refine .nil ?_
    rw [Option.getD_none, BitVec.sub_zero, BitVec.add_zero, ite_self]
    rfl
  | some bytes =>
    rw [hadj] at h
    dsimp only at h
    split at h
    · cases h
    · cases h
      refine (spAdjust_stackRegs _ m).mono fun m' hregs => ?_
      rw [hregs, Option.getD_some]
      cases down with
      | true => rw [if_pos rfl, if_pos rfl, BitVec.sub_eq_add_neg]
      | false => rw [if_neg (by simp), if_neg (by simp)]

end Expansion

end DirectPage
