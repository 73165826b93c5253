import DirectPage.Proofs.AddressRun

/-! Blocks that are taken off the stack while a function runs.

The stack pointer points to a free word. A block takes this word and as many bytes below it as it needs, and the
stack pointer is left a word below the block. Calls move it down for their arguments and up again. So whatever is in
use lies above the free word, however blocks and calls follow each other, and nothing that is taken later lies there. -/
namespace DirectPage

section Alignment

theorem exists_eq_two_pow {n : Nat} (h : isPowerOfTwo n = true) : ∃ k, n = 2 ^ k := by
  rw [isPowerOfTwo, Bool.and_eq_true, bne_iff_ne, beq_iff_eq] at h
  obtain ⟨hne, hand⟩ := h
  refine ⟨n.log2, Nat.le_antisymm (Nat.not_lt.mp fun hlt => ?_) (Nat.log2_self_le hne)⟩
  -- otherwise the highest bit is also that of the number before
  have hself := Nat.testBit_of_two_pow_le_and_two_pow_add_one_gt (Nat.log2_self_le hne) Nat.lt_log2_self
  have hprev : (n - 1).testBit n.log2 = true := by
    have := @Nat.lt_log2_self n
    exact Nat.testBit_of_two_pow_le_and_two_pow_add_one_gt (by omega) (by omega)
  have hbit := congrArg (Nat.testBit · n.log2) hand
  simp only [Nat.testBit_and, hself, hprev, Nat.zero_testBit, Bool.and_self] at hbit
  cases hbit

/-- Masking with the negative of a power of two rounds down to its multiples. -/
theorem toNat_and_neg {n : Nat} (h : isPowerOfTwo n = true) (w : Word) :
    (w &&& -BitVec.ofNat 32 n).toNat = w.toNat / n * n := by
  obtain ⟨k, rfl⟩ := exists_eq_two_pow h
  have hpow : BitVec.twoPow 32 k = BitVec.ofNat 32 (2 ^ k) :=
    BitVec.eq_of_toNat_eq (by rw [BitVec.toNat_twoPow, BitVec.toNat_ofNat])
  have hmask : w &&& -BitVec.ofNat 32 (2 ^ k) = (w >>> k) <<< k := by
    rw [BitVec.shiftLeft_ushiftRight, ← BitVec.neg_one_eq_allOnes, BitVec.shiftLeft_eq_mul_twoPow, BitVec.neg_mul,
      BitVec.one_mul, hpow]
  rw [hmask, BitVec.toNat_shiftLeft, BitVec.toNat_ushiftRight, Nat.shiftLeft_eq, Nat.shiftRight_eq_div_pow]
  exact Nat.mod_eq_of_lt (Nat.lt_of_le_of_lt (Nat.div_mul_le_self _ _) w.isLt)

end Alignment

namespace Expansion

open Machine

variable {frame : Frame} {is : List Instruction} {d l : UInt8} {align : Nat} {m : Machine}

/-- The code that takes a block off the stack. -/
theorem dynAlloc_eq (hd : d < 64) (hl : l < 64) (hpow : isPowerOfTwo (max align 4) = true)
    (hlt : max align 4 < 2147483648) : dynAlloc (.general d) (.general l) align =
      .ok [.implied .tsx, .implied .txa, .implied .clc, withConst .adcImm 4#32, .implied .sec,
        .direct .sbcDp (l * 4), withConst .andImm (-BitVec.ofNat 32 (max align 4)), sta (d * 4), .implied .sec,
        withConst .sbcImm 4#32, .implied .tax, .implied .txs] := by
  simp only [dynAlloc, Reg.slot_general hd, Reg.slot_general hl, ok_bind, hpow, Bool.not_true, Bool.false_eq_true,
    if_false, if_neg (Nat.not_le.mpr hlt)]
  rfl

theorem aligned_of_dynAlloc (h : dynAlloc (.general d) (.general l) align = .ok is) :
    isPowerOfTwo (max align 4) = true ∧ max align 4 < 2147483648 := by
  obtain ⟨_, -, h⟩ := bind_eq_ok.mp h
  obtain ⟨_, -, h⟩ := bind_eq_ok.mp h
  by_cases hpow : isPowerOfTwo (max align 4) = true
  · by_cases hlt : max align 4 < 2147483648
    · exact ⟨hpow, hlt⟩
    · simp only [hpow, Bool.not_true, Bool.false_eq_true, if_false, if_pos (Nat.not_lt.mp hlt)] at h
      cases h
  · simp only [Bool.not_eq_true _ ▸ hpow, Bool.not_false, if_true] at h
    cases h

/-- The block starts in the register of the result, and the stack pointer is left a word below it. -/
theorem dynAlloc_does (hd : d < 64) (hl : l < 64) (h : dynAlloc (.general d) (.general l) align = .ok is) :
    m.Does is fun m' => m'.gpr d = (m.sp + 4#32 - m.gpr l) &&& -BitVec.ofNat 32 (max align 4) ∧
      m'.sp = m'.gpr d - 4#32 := by
  obtain ⟨hpow, hlt⟩ := aligned_of_dynAlloc h
  rw [dynAlloc_eq hd hl hpow hlt] at h
  cases h
  -- with the carry set, subtracting is adding the complement and one
  have hminus (w v : Word) : w + ~~~v + 1#32 = w - v := by
    rw [BitVec.add_assoc, ← BitVec.neg_eq_not_add, ← BitVec.sub_eq_add_neg]
  generalize hstart : (m.sp + 4#32 - m.gpr l) &&& -BitVec.ofNat 32 (max align 4) = start
  have hsub : m.Does [.implied .tsx, .implied .txa, .implied .clc, withConst .adcImm 4#32, .implied .sec,
      .direct .sbcDp (l * 4), withConst .andImm (-BitVec.ofNat 32 (max align 4))] fun m1 => m1.a = start := by
    refine .cons rfl (.cons rfl (.cons rfl (.cons rfl (.cons rfl ?_))))
    refine .cons (advance_slotOpcode _ .sub _) (.cons rfl (.nil ?_))
    rw [← hstart, UInt8.toNat_mul_four hl, gpr_eq]
    change (m.sp + 4#32 + 0#32 + ~~~(m.memory.word (4 * l.toNat)) + 1#32) &&& _ = _
    rw [BitVec.add_zero, hminus]
  refine hsub.append fun m1 ha => .cons (m1.advance_sta _) ?_
  rw [UInt8.toNat_mul_four hd]
  have hgpr : (m1.memory.setWord (4 * d.toNat) m1.a).word (4 * d.toNat) = m1.a :=
    Memory.word_setWord_self (slot_le hd) _
  refine .cons rfl (.cons rfl (.cons rfl (.cons rfl (.nil ⟨?_, ?_⟩))))
  · rw [gpr_eq]
    exact hgpr.trans ha
  · rw [gpr_eq]
    exact (hminus m1.a 4#32).trans (congrArg (· - 4#32) hgpr.symm)

variable {s : Stream} {m' : Machine}

theorem dynAlloc_ok (s : Stream) (frame : Frame) (hd : d < 64) (hl : l < 64) (hpow : isPowerOfTwo align = true)
    (hlt : align < 2147483648) : ∃ is, code s frame (.dynAlloc (.general d) (.general l) align) = .ok is ∧
      ∀ m : Machine, ∃ m', m.advanceAll is = .ok m' := by
  have hmax : isPowerOfTwo (max align 4) = true ∧ max align 4 < 2147483648 := by
    rcases Nat.le_total align 4 with hle | hle
    · rw [Nat.max_eq_right hle]
      decide
    · rw [Nat.max_eq_left hle]
      exact ⟨hpow, hlt⟩
  have hcode := dynAlloc_eq hd hl hmax.1 hmax.2
  refine ⟨_, hcode, fun m => ?_⟩
  obtain ⟨m', hrun, -⟩ := dynAlloc_does (m := m) hd hl hcode
  exact ⟨m', hrun⟩

/-- Storing a stack argument leaves the stack pointer where it is. -/
theorem storeArgument_sp {offset : Word} (h : code s frame (.store (.general l) .word .sp offset) = .ok is)
    (hrun : m.advanceAll is = .ok m') : m'.sp = m.sp := by
  obtain ⟨slot, -, h⟩ := bind_eq_ok.mp h
  obtain rfl : is = [lda slot, .implied .pha] ++ ([Instruction.implied .tsx, .implied .txa, .implied .clc,
      withConst .adcImm (offset + 4#32), .implied .tax] ++ [Instruction.implied .pla, .absoluteX .staAbsX 0]) :=
    (Except.ok.inj h).symm
  rw [advanceAll_append] at hrun
  obtain ⟨m1, hpush, hrun⟩ := bind_eq_ok.mp hrun
  rw [advanceAll_append] at hrun
  obtain ⟨m2, haddress, hrun⟩ := bind_eq_ok.mp hrun
  -- the value is pushed, its address is computed, and it is popped again
  have hdown : m1.sp = m.sp - 4#32 := by
    rw [advanceAll_cons, advance_lda, ok_bind, advanceAll_cons] at hpush
    obtain ⟨_, hpush, ⟨⟩⟩ := bind_eq_ok.mp hpush
    change Machine.push _ _ = _ at hpush
    have hsp := push_sp hpush
    exact hsp
  have hsame : m1.Does [.implied .tsx, .implied .txa, .implied .clc, withConst .adcImm (offset + 4#32), .implied .tax]
      fun m2 => m2.sp = m1.sp := .cons rfl (.cons rfl (.cons rfl (.cons rfl (.cons rfl (.nil rfl)))))
  rw [advanceAll_cons] at hrun
  obtain ⟨m3, hpop, hrun⟩ := bind_eq_ok.mp hrun
  have hup : m3.sp = m2.sp + 4#32 := by
    change m2.pop >>= _ = _ at hpop
    obtain ⟨popped, hpop, hm3⟩ := bind_eq_ok.mp hpop
    obtain ⟨w, -, hpop⟩ := bind_eq_ok.mp hpop
    cases hpop
    cases hm3
    rfl
  rw [advanceAll_cons] at hrun
  obtain ⟨_, hsta, ⟨⟩⟩ := bind_eq_ok.mp hrun
  obtain ⟨mem, rfl⟩ := writeBytes_eq hsta
  rw [show m3.sp = m.sp by rw [hup, hsame.of_ok haddress, hdown, BitVec.sub_add_cancel]]

theorem storeFloatArgument_sp {k n : UInt8} {prec : Precision}
    (h : code s frame (.fstore (.phys (.float k)) prec (.reg (.general n))) = .ok is)
    (hrun : m.advanceAll is = .ok m') : m'.sp = m.sp := by
  change Expansion.floatMem .store (.phys (.float k)) prec (.reg (.general n)) = .ok is at h
  rw [floatMem_accesses h] at hrun
  obtain ⟨mem, rfl⟩ := writeBytes_eq hrun
  rfl

end Expansion

/-! Bodies. -/

/-- What the body of a function does with the stack: it takes a block, or a call writes there. -/
inductive StackEvent
  | block (start : Word) (size align : Nat)
  | written (start : Word) (size : Nat)

namespace StackEvent

def start : StackEvent → Word
  | block a _ _ | written a _ => a

def size : StackEvent → Nat
  | block _ n _ | written _ n => n

end StackEvent

def blockStart (sp size : Word) (align : Nat) : Nat :=
  (sp.toNat + wordSize - size.toNat) / max align 4 * max align 4

/-- A step of a body, and what it does with the stack. Outside a call, blocks are taken. A call with so many bytes of
stack arguments moves the stack pointer down, stores the arguments, pushes the return address and, when the function
called has returned, moves the stack pointer up again. All else may do what it likes but move the stack pointer. -/
inductive BodyStep (frame : Frame) : Option Nat → Machine → Option StackEvent → Option Nat → Machine → Prop
  | other {c : Option Nat} {m m' : Machine} : m'.sp = m.sp → BodyStep frame c m none c m'
  | alloc {s : Stream} {is : List Instruction} {d l : UInt8} {align : Nat} {m m' : Machine} : d < 64 → l < 64 →
      Expansion.code s frame (.dynAlloc (.general d) (.general l) align) = .ok is → m.advanceAll is = .ok m' →
      wordSize ≤ blockStart m.sp (m.gpr l) align →
      BodyStep frame none m (some (.block (m'.gpr d) (m.gpr l).toNat align)) none m'
  | down {s : Stream} {is : List Instruction} {k : Nat} {m m' : Machine} :
      Expansion.code s frame (.callStackDown (returnAddressSize + k)) = .ok is → m.advanceAll is = .ok m' →
      returnAddressSize + k ≤ m.sp.toNat →
      BodyStep frame none m (some (.written m'.sp (returnAddressSize + k))) (some k) m'
  | argument {s : Stream} {is : List Instruction} {l : UInt8} {offset k : Nat} {m m' : Machine} :
      Expansion.code s frame (.store (.general l) .word .sp (BitVec.ofNat 32 (returnAddressSize + offset))) = .ok is →
      m.advanceAll is = .ok m' → offset + wordSize ≤ k →
      BodyStep frame (some k) m (some (.written (m.sp + BitVec.ofNat 32 (returnAddressSize + offset)) wordSize))
        (some k) m'
  | floatArgument {s : Stream} {is : List Instruction} {f n : UInt8} {prec : Precision} {offset k : Nat}
      {m m' : Machine} :
      Expansion.code s frame (.fstore (.phys (.float f)) prec (.reg (.general n))) = .ok is →
      m.advanceAll is = .ok m' → m.gpr n = m.sp + BitVec.ofNat 32 (returnAddressSize + offset) →
      offset + prec.bytes ≤ k →
      BodyStep frame (some k) m (some (.written (m.gpr n) prec.bytes)) (some k) m'
  | call {k : Nat} {back : Word} {m m1 m' : Machine} : m.push back = .ok m1 → m'.sp = m.sp →
      BodyStep frame (some k) m (some (.written m.sp returnAddressSize)) (some k) m'
  | up {s : Stream} {is : List Instruction} {k : Nat} {m m' : Machine} :
      Expansion.code s frame (.callStackUp (returnAddressSize + k)) = .ok is → m.advanceAll is = .ok m' →
      BodyStep frame (some k) m none none m'

inductive BodyRun (frame : Frame) : Option Nat → Machine → List StackEvent → Option Nat → Machine → Prop
  | nil {c : Option Nat} {m : Machine} : BodyRun frame c m [] c m
  | cons {c c1 c' : Option Nat} {m m1 m' : Machine} {e : Option StackEvent} {es : List StackEvent} :
      BodyStep frame c m e c1 m1 → BodyRun frame c1 m1 es c' m' → BodyRun frame c m (e.toList ++ es) c' m'

def stackLevel : Option Nat → Machine → Nat
  | none, m => m.sp.toNat
  | some k, m => m.sp.toNat + (returnAddressSize + k)

section Runs

open Expansion Machine

variable {frame : Frame} {c c' : Option Nat} {m m' : Machine} {is : List Instruction}

/-- A block is taken from the free word downwards, and the stack pointer is left below it. -/
theorem alloc_falls {s : Stream} {d l : UInt8} {align : Nat} (hd : d < 64) (hl : l < 64)
    (h : code s frame (.dynAlloc (.general d) (.general l) align) = .ok is) (hrun : m.advanceAll is = .ok m')
    (hroom : wordSize ≤ blockStart m.sp (m.gpr l) align) (hlt : m.sp.toNat + wordSize < 4294967296) :
    (m'.gpr d).toNat = m'.sp.toNat + wordSize ∧ (m'.gpr d).toNat % max align 4 = 0 ∧
      (m'.gpr d).toNat + (m.gpr l).toNat ≤ m.sp.toNat + wordSize := by
  change dynAlloc (.general d) (.general l) align = .ok is at h
  obtain ⟨hstart, hsp⟩ := (dynAlloc_does hd hl h).of_ok hrun
  obtain ⟨hpow, -⟩ := aligned_of_dynAlloc h
  have hle := Nat.div_mul_le_self (m.sp.toNat + wordSize - (m.gpr l).toNat) (max align 4)
  have hnat : (m'.gpr d).toNat = blockStart m.sp (m.gpr l) align := by
    have hfour : (m.sp + 4#32).toNat = m.sp.toNat + wordSize := Word.toNat_add_ofNat hlt
    rw [hstart, toNat_and_neg hpow, blockStart, BitVec.toNat_sub_of_le, hfour]
    rw [BitVec.le_def, hfour]
    rw [blockStart] at hroom
    have : wordSize = 4 := rfl
    omega
  rw [blockStart] at hroom hnat
  refine ⟨?_, ?_, ?_⟩
  · rw [hsp, Word.toNat_sub_ofNat (by rw [hnat]; exact hroom), hnat]
    exact (Nat.sub_add_cancel hroom).symm
  · rw [hnat]
    exact Nat.mul_mod_left _ _
  · have : wordSize = 4 := rfl
    omega

theorem stackLevel_none (m : Machine) : stackLevel none m = m.sp.toNat := rfl

theorem stackLevel_some (k : Nat) (m : Machine) : stackLevel (some k) m = m.sp.toNat + (returnAddressSize + k) := rfl

theorem sp_le_stackLevel (c : Option Nat) (m : Machine) : m.sp.toNat ≤ stackLevel c m := by
  cases c with
  | none => exact Nat.le_refl _
  | some k => exact Nat.le_add_right _ _

theorem callStack_sp (hres : frame.reservedCallFrame = false) {n : Nat} {down : Bool}
    (h : callStack frame n down = .ok is) (hrun : m.advanceAll is = .ok m') :
    m'.sp = if down then m.sp - BitVec.ofNat 32 n else m.sp + BitVec.ofNat 32 n := by
  have hregs := (callStack_stackRegs h).of_ok hrun
  have hadjust : frame.callAdjustment? n = some n := by
    rw [Frame.callAdjustment?, hres]
    rfl
  rw [hadjust] at hregs
  exact congrArg StackRegs.sp hregs

/-- What is taken of the stack lies below what was in use before, and blocks stay in use. -/
structure Falls (c : Option Nat) (m : Machine) (es : List StackEvent) (c' : Option Nat) (m' : Machine) : Prop where
  level : stackLevel c' m' ≤ stackLevel c m
  ends : ∀ e ∈ es, e.start.toNat + e.size ≤ stackLevel c m + wordSize
  blocks : ∀ a n align, .block a n align ∈ es → stackLevel c' m' + wordSize ≤ a.toNat ∧ a.toNat % max align 4 = 0
  apart : es.Pairwise fun e e' => ∀ a n align, e = .block a n align → e'.start.toNat + e'.size ≤ a.toNat

namespace Falls

theorem quiet (h : stackLevel c' m' = stackLevel c m) : Falls c m [] c' m' := ⟨Nat.le_of_eq h, by simp, by simp, .nil⟩

theorem written {b : Word} {n : Nat} (h : stackLevel c' m' = stackLevel c m) (hend : b.toNat + n ≤ stackLevel c m) :
    Falls c m [.written b n] c' m' := by
  refine ⟨Nat.le_of_eq h, fun e he => ?_, by simp, List.pairwise_singleton _ _⟩
  rw [List.mem_singleton.mp he]
  exact Nat.le_add_right_of_le hend

theorem block {a : Word} {n align : Nat} (hlevel : a.toNat = stackLevel c' m' + wordSize)
    (hmod : a.toNat % max align 4 = 0) (hend : a.toNat + n ≤ stackLevel c m + wordSize) :
    Falls c m [.block a n align] c' m' := by
  refine ⟨by omega, fun e he => ?_, fun b k al hb => ?_, List.pairwise_singleton _ _⟩
  · rw [List.mem_singleton.mp he]
    exact hend
  · cases List.mem_singleton.mp hb
    exact ⟨Nat.le_of_eq hlevel.symm, hmod⟩

/-- What is taken later lies below the blocks that were taken before. -/
theorem append {c1 : Option Nat} {m1 : Machine} {es es' : List StackEvent} (h : Falls c m es c1 m1)
    (h' : Falls c1 m1 es' c' m') : Falls c m (es ++ es') c' m' := by
  have hlevel := h.level
  have hlevel' := h'.level
  refine ⟨Nat.le_trans hlevel' hlevel, fun e he => ?_, fun a n align ha => ?_, ?_⟩
  · rcases List.mem_append.mp he with he | he
    · exact h.ends e he
    · have := h'.ends e he
      omega
  · rcases List.mem_append.mp ha with ha | ha
    · obtain ⟨hbelow, hmod⟩ := h.blocks a n align ha
      exact ⟨by omega, hmod⟩
    · exact h'.blocks a n align ha
  · refine List.pairwise_append.mpr ⟨h.apart, h'.apart, ?_⟩
    rintro e he e' he' a n align rfl
    exact Nat.le_trans (h'.ends e' he') (h.blocks a n align he).1

end Falls

theorem BodyStep.falls {e : Option StackEvent} (hres : frame.reservedCallFrame = false) (h : BodyStep frame c m e c' m')
    (hlt : stackLevel c m + wordSize < 4294967296) : Falls c m e.toList c' m' := by
  have hsame {c : Option Nat} {m m' : Machine} (hsp : m'.sp = m.sp) : stackLevel c m' = stackLevel c m := by
    cases c with
    | none => rw [stackLevel_none, stackLevel_none, hsp]
    | some k => rw [stackLevel_some, stackLevel_some, hsp]
  cases h with
  | other hsp => exact .quiet (hsame hsp)
  | alloc hd hl hcode hrun hroom =>
    obtain ⟨hsp, hmod, hend⟩ := alloc_falls hd hl hcode hrun hroom hlt
    exact .block hsp hmod hend
  | @down s is k m m' hcode hrun hroom =>
    have hsp : m'.sp.toNat = m.sp.toNat - (returnAddressSize + k) := by
      rw [callStack_sp hres hcode hrun, if_pos rfl, Word.toNat_sub_ofNat hroom]
    have hback : m'.sp.toNat + (returnAddressSize + k) = m.sp.toNat := by omega
    exact .written hback (Nat.le_of_eq hback)
  | @argument s is l offset k m m' hcode hrun hfits =>
    rw [stackLevel_some] at hlt
    refine .written (hsame (storeArgument_sp hcode hrun)) ?_
    rw [Word.toNat_add_ofNat (by omega), stackLevel_some]
    omega
  | @floatArgument s is f n prec offset k m m' hcode hrun haddr hfits =>
    rw [stackLevel_some] at hlt
    refine .written (hsame (storeFloatArgument_sp hcode hrun)) ?_
    rw [haddr, Word.toNat_add_ofNat (by omega), stackLevel_some]
    omega
  | @call k back m m1 m' hpush hsp =>
    refine .written (hsame hsp) ?_
    rw [stackLevel_some]
    omega
  | @up s is k m m' hcode hrun =>
    rw [stackLevel_some] at hlt
    refine .quiet ?_
    rw [stackLevel_none, stackLevel_some, callStack_sp hres hcode hrun, if_neg (by decide),
      Word.toNat_add_ofNat (by omega)]

theorem BodyRun.falls {es : List StackEvent} (hres : frame.reservedCallFrame = false) (h : BodyRun frame c m es c' m')
    (hlt : stackLevel c m + wordSize < 4294967296) : Falls c m es c' m' := by
  induction h with
  | nil => exact .quiet rfl
  | cons hstep hrest ih =>
    have hfirst := hstep.falls hres hlt
    have hlevel := hfirst.level
    exact hfirst.append (ih (by omega))

end Runs

section Frames

theorem bytesApart_of_toNat {a b : Word} {n k : Nat} (hle : a.toNat + n ≤ b.toNat)
    (hwrap : b.toNat + k ≤ 4294967296 + a.toNat) : BytesApart a n b k := by
  intro x hx y hy he
  have hnat := congrArg BitVec.toNat he
  have := a.isLt
  have := b.isLt
  simp only [BitVec.toNat_add, BitVec.toNat_ofNat] at hnat
  omega

namespace Frame

variable {frame : Frame} {plan : FramePlan} {entry opened : StackRegs} {i : Nat}

theorem offset_of_address {b : Word} (hentry : StackRun frame frame.prologue entry opened)
    (h : frame.address? opened i 0#32 = some b) :
    ∃ place n, frame.places[i]? = some place ∧ frame.offset place = .ok n ∧ b = opened.sp + BitVec.ofNat 32 n := by
  have hr := h
  rw [address?] at hr
  split at hr
  · next base offset hresolve =>
    obtain ⟨place, n, hplace, hn, hlt⟩ := offset_of_resolve hresolve
    rw [address?_of_offset hentry hplace hn hlt] at h
    exact ⟨place, n, hplace, hn, (Option.some.inj h).symm⟩
  · cases hr

/-- The stack pointer moved from entry by the frame and the pushed registers, and did not get below zero. -/
theorem sp_entry (hentry : StackRun frame frame.prologue entry opened)
    (hroom : wordSize * frame.pushes + frame.stackSize ≤ entry.sp.toNat) :
    opened.sp.toNat + (wordSize * frame.pushes + frame.stackSize) = entry.sp.toNat := by
  rw [hentry.prologue.1, depth, Word.toNat_sub_ofNat hroom]
  omega

/-- A frame has at least the free word that the stack pointer points to. -/
theorem LaidFrom.word_le_callFrameSize (h : frame.LaidFrom plan) : wordSize ≤ frame.callFrameSize := by
  rw [h.callFrameSize, FramePlan.callBytes]
  split
  · exact Nat.le_max_right _ _
  · exact Nat.le_refl _

/-- What a block of the stack has to lie apart from, `pre` being what the body did with the stack before and `post` what
it did with it since, up to a machine. -/
structure ClearOf (frame : Frame) (plan : FramePlan) (entry opened : StackRegs) (pre post : List StackEvent)
    (m : Machine) (a : Word) (n : Nat) : Prop where
  blocks : ∀ b k align, .block b k align ∈ pre → BytesApart a n b k
  locals : ∀ (i : Nat) size align b, plan.objects[i]? = some (.local size align) →
    frame.address? opened i 0#32 = some b → BytesApart a n b size
  pushed : ∀ ops r ops' u, frame.prologue = ops ++ .push r :: ops' → StackRun frame ops entry u →
    BytesApart a n u.sp wordSize
  /-- The return address, and all that the caller has above it. -/
  caller : ∀ k, entry.sp.toNat + wordSize + k ≤ 4294967296 → BytesApart a n (entry.sp + BitVec.ofNat 32 wordSize) k
  incoming : ∀ (i : Nat) offset size b, plan.objects[i]? = some (.incoming offset size) →
    entry.sp.toNat + incomingArgsOffset + offset + size ≤ 4294967296 → frame.address? opened i 0#32 = some b →
    BytesApart a n b size
  /-- The word that the next push goes to. -/
  free : BytesApart a n m.sp wordSize
  written : ∀ b k, .written b k ∈ post → BytesApart a n b k

section Above

variable {pre post : List StackEvent} {m : Machine} {a : Word} {n : Nat}

/-- Whatever lies a word or more above the stack pointer behind the prologue lies apart from a block. -/
theorem apart_of_offset {k size : Nat} (hlow : wordSize ≤ a.toNat) (hend : a.toNat + n ≤ opened.sp.toNat + wordSize)
    (hk : wordSize ≤ k) (hstart : opened.sp.toNat + k < 4294967296)
    (hsize : opened.sp.toNat + k + size ≤ 4294967296 + wordSize) :
    BytesApart a n (opened.sp + BitVec.ofNat 32 k) size := by
  have hnat := Word.toNat_add_ofNat hstart
  exact bytesApart_of_toNat (by omega) (by omega)

variable (hlaid : frame.LaidFrom plan) (hentry : StackRun frame frame.prologue entry opened)
  (hroom : wordSize * frame.pushes + frame.stackSize ≤ entry.sp.toNat) (hlow : wordSize ≤ a.toNat)
  (hend : a.toNat + n ≤ opened.sp.toNat + wordSize)
include hentry hroom hlow hend

include hlaid in
theorem local_apart_block {size align : Nat} {b : Word} (hi : plan.objects[i]? = some (.local size align))
    (hb : frame.address? opened i 0#32 = some b) : BytesApart a n b size := by
  have hsp := sp_entry hentry hroom
  have hcall := hlaid.word_le_callFrameSize
  obtain ⟨hstart, hstop⟩ := hlaid.local_within hi
  obtain ⟨place, k, hplace, hk, rfl⟩ := offset_of_address hentry hb
  obtain ⟨stop, hobjects, -⟩ := hlaid.laid
  obtain ⟨start, hlocal, -⟩ := hobjects.locals i size align hi
  obtain rfl := Option.some.inj (hlocal.symm.trans hplace)
  obtain ⟨top, -, hk⟩ := bind_eq_ok.mp hk
  obtain rfl := unsigned32_eq_ok hk
  rw [localOffset, hlocal] at hstart hstop
  dsimp only at hstart hstop
  have := entry.sp.isLt
  exact apart_of_offset hlow hend (by omega) (by omega) (by omega)

theorem pushed_apart_block {ops ops' : List Pseudo} {r : Register} {u : StackRegs}
    (hsplit : frame.prologue = ops ++ .push r :: ops') (hrun : StackRun frame ops entry u) :
    BytesApart a n u.sp wordSize := by
  have hsp := sp_entry hentry hroom
  obtain ⟨k, hk, hlt⟩ := pushed_above hentry hsplit hrun
  have hpushes : wordSize * (k + 1) ≤ wordSize * frame.pushes := Nat.mul_le_mul_left _ hlt
  have hword : wordSize ≤ wordSize * (k + 1) := Nat.le_mul_of_pos_right _ (Nat.succ_pos k)
  have := entry.sp.isLt
  rw [hk]
  exact apart_of_offset hlow hend (by omega) (by omega) (by omega)

theorem caller_apart_block {k size : Nat} (hk : wordSize ≤ k) (hfits : entry.sp.toNat + k + size ≤ 4294967296) :
    BytesApart a n (entry.sp + BitVec.ofNat 32 k) size := by
  have hsp := sp_entry hentry hroom
  rcases Nat.eq_zero_or_pos size with rfl | hpos
  · exact fun _ _ _ hy => absurd hy (Nat.not_lt_zero _)
  · rw [← sp_add_entry hentry k]
    exact apart_of_offset hlow hend (by omega) (by omega) (by omega)

theorem incoming_apart_block {offset size : Nat} {b : Word} (hplace : frame.places[i]? = some (.incoming offset))
    (hfits : entry.sp.toNat + incomingArgsOffset + offset + size ≤ 4294967296)
    (hb : frame.address? opened i 0#32 = some b) : BytesApart a n b size := by
  obtain ⟨place, k, hplace', hk, rfl⟩ := offset_of_address hentry hb
  obtain rfl := Option.some.inj (hplace.symm.trans hplace')
  obtain ⟨top, htop, hk⟩ := bind_eq_ok.mp hk
  obtain rfl := unsigned32_eq_ok htop
  obtain rfl := unsigned32_eq_ok hk
  have hword : wordSize ≤ incomingArgsOffset := by decide
  rw [Nat.add_assoc, sp_add_entry hentry]
  exact caller_apart_block hentry hroom hlow hend (by omega) (by omega)

end Above

section Bodies

variable {m m' : Machine} (hlaid : frame.LaidFrom plan) (hentry : StackRun frame frame.prologue entry m.stackRegs)
  (hroom : wordSize * frame.pushes + frame.stackSize ≤ entry.sp.toNat)
include hlaid hentry hroom

/-- The free word behind the prologue does not wrap around, since it is part of the frame. -/
theorem LaidFrom.stackLevel_lt : stackLevel none m + wordSize < 4294967296 := by
  have hsp : m.sp.toNat + _ = entry.sp.toNat := sp_entry hentry hroom
  have hcall := hlaid.word_le_callFrameSize
  obtain ⟨stop, -, hstop⟩ := hlaid.laid
  have := entry.sp.isLt
  rw [stackLevel_none]
  omega

/-- In a body that takes the stack downwards, a block lies apart from all that is in use. -/
theorem LaidFrom.clearOf_of_falls {pre post : List StackEvent} {a : Word} {n align : Nat} {c : Option Nat}
    (hfalls : Falls none m (pre ++ .block a n align :: post) c m')
    (hplaces : ∀ (i : Nat) offset size, plan.objects[i]? = some (.incoming offset size) →
      frame.places[i]? = some (.incoming offset)) :
    frame.ClearOf plan entry m.stackRegs pre post m' a n := by
  have hlt := hlaid.stackLevel_lt hentry hroom
  have hmem : .block a n align ∈ pre ++ .block a n align :: post := List.mem_append_right _ List.mem_cons_self
  have hend : a.toNat + n ≤ m.sp.toNat + wordSize := hfalls.ends _ hmem
  obtain ⟨hlevel, -⟩ := hfalls.blocks a n align hmem
  obtain ⟨-, hpost, hpre⟩ := List.pairwise_append.mp hfalls.apart
  have hlow : wordSize ≤ a.toNat := Nat.le_of_add_left_le hlevel
  rw [stackLevel_none] at hlt
  constructor
  case blocks =>
    intro b k al hb
    have hover : b.toNat + k ≤ m.sp.toNat + wordSize := hfalls.ends _ (List.mem_append_left _ hb)
    exact bytesApart_of_toNat (hpre _ hb _ List.mem_cons_self b k al rfl) (by omega)
  case locals =>
    intro i size al b hi hb
    exact local_apart_block hlaid hentry hroom hlow hend hi hb
  case pushed =>
    intro ops r ops' u hsplit hu
    exact pushed_apart_block hentry hroom hlow hend hsplit hu
  case caller =>
    intro k hk
    exact caller_apart_block hentry hroom hlow hend (Nat.le_refl _) hk
  case incoming =>
    intro i offset size b hi hfits hb
    exact incoming_apart_block hentry hroom hlow hend (hplaces i offset size hi) hfits hb
  case free =>
    have hbelow := sp_le_stackLevel c m'
    exact (bytesApart_of_toNat (by omega) (by omega)).symm
  case written =>
    intro b k hb
    have hunder : b.toNat + k ≤ a.toNat := (List.pairwise_cons.mp hpost).1 _ hb a n align rfl
    exact (bytesApart_of_toNat hunder (by omega)).symm

end Bodies

end Frame

/-- Blocks are given out for all sizes and for all alignments that are powers of two. Each is aligned. It lies apart
from the blocks before it, from the objects of the frame, the registers it keeps and what the caller has above it, and
from whatever is pushed or written for calls afterwards, as long as the stack pointer does not get below zero. -/
theorem FramePlan.finalize_blocks_clear {ops : List FrameOp} {frame : Frame} (hframe : (build ops).finalize = .ok frame)
    (hvar : (build ops).hasVarSized = true) :
    (∀ s d l align, d < 64 → l < 64 → isPowerOfTwo align = true → align < 2147483648 →
      ∃ is, Expansion.code s frame (.dynAlloc (.general d) (.general l) align) = .ok is ∧
        ∀ m : Machine, ∃ m', m.advanceAll is = .ok m') ∧
    ∀ entry m es c m', StackRun frame frame.prologue entry m.stackRegs →
      wordSize * frame.pushes + frame.stackSize ≤ entry.sp.toNat → BodyRun frame none m es c m' →
      ∀ pre a n align post, es = pre ++ .block a n align :: post →
        a.toNat % max align 4 = 0 ∧ frame.ClearOf (build ops) entry m.stackRegs pre post m' a n := by
  have hlaid := finalize_laidFrom (build_sound ops).aligned hframe
  have hres : frame.reservedCallFrame = false := by
    rw [hlaid.reserved, hvar]
    rfl
  refine ⟨fun s d l align hd hl hpow hlt => Expansion.dynAlloc_ok s frame hd hl hpow hlt, ?_⟩
  rintro entry m es c m' hentry hroom hrun pre a n align post rfl
  have hlt := hlaid.stackLevel_lt hentry hroom
  have hfalls := hrun.falls hres hlt
  have hmem : .block a n align ∈ pre ++ .block a n align :: post := List.mem_append_right _ List.mem_cons_self
  refine ⟨(hfalls.blocks a n align hmem).2, hlaid.clearOf_of_falls hentry hroom hfalls fun i offset size hi => ?_⟩
  exact finalize_callerPlace hframe hi rfl

def blockOps : List FrameOp := [.setVarSized, .addLocal 8 4, .noteCall 8]

def blockFrame : Frame :=
  { places := [.local 0], callFrameSize := 8, stackSize := 16, frameBase := true, reservedCallFrame := false,
    saved := [] }

def blockMachine : Machine where
  memory := (Memory.setWord (.uniform 0) 116 4076#32).setWord 4 10#32
  sp := 4076#32

theorem FramePlan.finalize_blocks_clear_call :
    (build blockOps).finalize = .ok blockFrame ∧ (build blockOps).hasVarSized = true ∧
    StackRun blockFrame blockFrame.prologue ⟨4096#32, 0#32⟩ blockMachine.stackRegs ∧
    ∃ m', BodyRun blockFrame none blockMachine [.block 4064#32 10 16, .written 4052#32 8] (some 4) m' ∧
      blockFrame.ClearOf (build blockOps) ⟨4096#32, 0#32⟩ blockMachine.stackRegs [] [.written 4052#32 8] m'
        4064#32 10 := by
  have hframe : (build blockOps).finalize = .ok blockFrame := by decide +kernel
  have hentry : StackRun blockFrame blockFrame.prologue ⟨4096#32, 0#32⟩ blockMachine.stackRegs := by
    have hregs : blockMachine.stackRegs = ⟨4076#32, 4076#32⟩ := by
      change StackRegs.mk 4076#32 (blockMachine.memory.word 116) = _
      rw [show blockMachine.memory.word 116 = 4076#32 by decide +kernel]
    have hpush : StackStep blockFrame (.push frameBase) ⟨4096#32, 0#32⟩ ⟨4092#32, 0#32⟩ :=
      ⟨fun w hw => Option.some.inj hw, by simp, fun _ _ => rfl⟩
    have hmove : StackStep blockFrame (.spAdjust (-16#32)) ⟨4092#32, 0#32⟩ ⟨4076#32, 0#32⟩ :=
      ⟨fun w hw => Option.some.inj hw, by simp, fun _ _ => rfl⟩
    have hset : StackStep blockFrame .setFrameBase ⟨4076#32, 0#32⟩ ⟨4076#32, 4076#32⟩ :=
      ⟨fun w hw => Option.some.inj hw, fun _ => rfl, fun hne => absurd rfl hne⟩
    rw [hregs]
    exact .cons hpush (.cons hmove (.cons hset .nil))
  have hcode := Expansion.dynAlloc_eq (d := 2) (l := 1) (by decide) (by decide)
    (show isPowerOfTwo (max 16 4) = true by decide) (by decide)
  obtain ⟨m1, hrun1, hstart, hsp1⟩ := Expansion.dynAlloc_does (m := blockMachine) (by decide) (by decide) hcode
  have hblock : m1.gpr 2 = 4064#32 := hstart.trans (by decide +kernel)
  obtain ⟨m2, hrun2, -, hsp2⟩ := Expansion.spAdjust_does (-8#32) m1
  have harea : m2.sp = 4052#32 := by rw [hsp2, hsp1, hblock]; rfl
  have hsize : (blockMachine.gpr 1).toNat = 10 := by decide +kernel
  have halloc : BodyStep blockFrame none blockMachine (some (.block 4064#32 10 16)) none m1 := by
    rw [← hblock, ← hsize]
    exact .alloc (s := .empty "" 0 []) (by decide) (by decide) hcode hrun1 (by decide +kernel)
  have hdown : BodyStep blockFrame none m1 (some (.written 4052#32 8)) (some 4) m2 := by
    rw [← harea]
    exact .down (s := .empty "" 0 []) (k := 4) rfl hrun2 (by rw [hsp1, hblock]; decide)
  have hrun : BodyRun blockFrame none blockMachine [.block 4064#32 10 16, .written 4052#32 8] (some 4) m2 :=
    .cons halloc (.cons hdown .nil)
  obtain ⟨-, hclear⟩ := finalize_blocks_clear hframe rfl
  exact ⟨hframe, rfl, hentry, m2, hrun, (hclear _ _ _ _ _ hentry (by decide) hrun [] _ _ _ _ rfl).2⟩

end Frames

end DirectPage
