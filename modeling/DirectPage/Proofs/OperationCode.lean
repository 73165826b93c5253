import DirectPage.Proofs.ActionRun
import DirectPage.Proofs.Semantics

/-! The instructions of word operations leave the result in its register and change no other word. -/
namespace DirectPage

theorem UInt8.toNat_mul_four {n : UInt8} (h : n < 64) : (n * 4).toNat = 4 * n.toNat := by
  have : n.toNat < 64 := h
  rw [UInt8.toNat_mul]
  change n.toNat * 4 % 256 = _
  omega

abbrev Reg.general (n : UInt8) : Reg := .phys (.general n)

namespace Reg

variable {n : UInt8} (h : n < 64)
include h

theorem slot_general : (general n).slot = .ok (n * 4) := by
  change orFail _ (if n < 64 then some (n * 4) else none) = _
  rw [if_pos h]
  rfl

theorem number_general : (general n).number = .ok n := if_pos h

end Reg

namespace Machine

def Does (m : Machine) (is : List Instruction) (P : Machine → Prop) : Prop := ∃ m', m.advanceAll is = .ok m' ∧ P m'

def Runs (m : Machine) (as : List Action) (P : Machine → Prop) : Prop :=
  ∃ m', Action.run (none, m) as = .ok (none, m') ∧ P m'

structure Sets (a : Nat) (w : Word) (m m' : Machine) : Prop where
  sp : m'.sp = m.sp
  value : m'.memory.word a = w
  others : ∀ b, b + 4 ≤ memorySize → b + 4 ≤ a ∨ a + 4 ≤ b → m'.memory.word b = m.memory.word b

/-- A word was written to an address, and nothing else to memory but to the free word at the stack pointer. -/
structure Stores (a : Nat) (w : Word) (m m' : Machine) : Prop where
  sp : m'.sp = m.sp
  value : m'.memory.word a = w
  others : ∀ b, b + 4 ≤ memorySize → b + 4 ≤ a ∨ a + 4 ≤ b → b + 4 ≤ m.sp.toNat ∨ m.sp.toNat + 4 ≤ b →
    m'.memory.word b = m.memory.word b

variable {m m1 m' : Machine} {P Q : Machine → Prop} {i : Instruction} {is js : List Instruction} {w : Word} {a : Nat}

namespace Does

theorem nil (h : P m) : m.Does [] P := ⟨m, rfl, h⟩

theorem cons (h : m.advance i = .ok m1) (h' : m1.Does is P) : m.Does (i :: is) P := by
  obtain ⟨m', hm, hp⟩ := h'
  exact ⟨m', by rw [advanceAll_cons, h, ok_bind, hm], hp⟩

theorem append (h : m.Does is P) (h' : ∀ m1, P m1 → m1.Does js Q) : m.Does (is ++ js) Q := by
  obtain ⟨m1, hm, hp⟩ := h
  obtain ⟨m', hm', hq⟩ := h' m1 hp
  exact ⟨m', by rw [advanceAll_append, hm, ok_bind, hm'], hq⟩

theorem runs (h : m.Does is P) : m.Runs (is.map .emit) P := by
  obtain ⟨m', hm, hp⟩ := h
  exact ⟨m', by rw [Action.run_emit, hm]; rfl, hp⟩

theorem mono (h : m.Does is P) (h' : ∀ m1, P m1 → Q m1) : m.Does is Q := by
  obtain ⟨m', hm, hp⟩ := h
  exact ⟨m', hm, h' m' hp⟩

theorem of_ok (h : m.Does is P) (hrun : m.advanceAll is = .ok m') : P m' := by
  obtain ⟨m1, hm, hp⟩ := h
  obtain rfl := Except.ok.inj (hm.symm.trans hrun)
  exact hp

end Does

theorem Runs.mono {as : List Action} (h : m.Runs as P) (h' : ∀ m1, P m1 → Q m1) : m.Runs as Q := by
  obtain ⟨m', hm, hp⟩ := h
  exact ⟨m', hm, h' m' hp⟩

theorem Sets.of_setWord (ha : a + 4 ≤ memorySize) (hm : m'.memory = m.memory.setWord a w) (hs : m'.sp = m.sp) :
    m.Sets a w m' where
  sp := hs
  value := by rw [hm, Memory.word_setWord_self ha]
  others b hb h := by rw [hm, Memory.word_setWord_ne ha hb h]

def Rest (m m' : Machine) : Prop :=
  ∃ acc x y flags mem, m' = { m with a := acc, x := x, y := y, flags := flags, memory := mem }

namespace Rest

theorem refl (m : Machine) : m.Rest m := ⟨m.a, m.x, m.y, m.flags, m.memory, rfl⟩

theorem trans (h : m.Rest m1) (h' : m1.Rest m') : m.Rest m' := by
  obtain ⟨_, _, _, _, _, rfl⟩ := h
  obtain ⟨acc, x, y, flags, mem, rfl⟩ := h'
  exact ⟨acc, x, y, flags, mem, rfl⟩

theorem sp (h : m.Rest m') : m'.sp = m.sp := by
  obtain ⟨_, _, _, _, _, rfl⟩ := h
  rfl

theorem withSp (h : m.Rest m') (w : Word) : Rest { m with sp := w } { m' with sp := w } := by
  obtain ⟨acc, x, y, flags, mem, rfl⟩ := h
  exact ⟨acc, x, y, flags, mem, rfl⟩

end Rest

def Beside (m m' : Machine) : Prop :=
  ∃ acc t flags mem, m' = { m with a := acc, t := t, flags := flags, memory := mem }

theorem Beside.trans (h : m.Beside m1) (h' : m1.Beside m') : m.Beside m' := by
  obtain ⟨_, _, _, _, rfl⟩ := h
  obtain ⟨acc, t, flags, mem, rfl⟩ := h'
  exact ⟨acc, t, flags, mem, rfl⟩

structure Yields (a : Nat) (w : Word) (m m' : Machine) : Prop where
  rest : m.Beside m'
  value : m'.memory.word a = w
  bytes : ∀ b < memorySize, b < a ∨ a + 4 ≤ b → m'.memory.get b = m.memory.get b

namespace Yields

theorem of_setWord (ha : a + 4 ≤ memorySize) (hrest : m.Beside m') (hm : m'.memory = m.memory.setWord a w) :
    m.Yields a w m' where
  rest := hrest
  value := by rw [hm, Memory.word_setWord_self ha]
  bytes b hb h := by rw [hm, Memory.get_setWord_ne ha hb h]

/-- Words that lie elsewhere are as before. -/
theorem others (h : m.Yields a w m') {b : Nat} (hb : b + 4 ≤ memorySize) (hab : b + 4 ≤ a ∨ a + 4 ≤ b) :
    m'.memory.word b = m.memory.word b :=
  Memory.word_congr fun c hc hlt => h.bytes c (by omega) (by omega)

theorem sets (h : m.Yields a w m') : m.Sets a w m' := by
  refine ⟨?_, h.value, fun b => h.others⟩
  obtain ⟨acc, t, flags, mem, rfl⟩ := h.rest
  rfl

end Yields

def regs (m : Machine) : Reg → Word
  | .phys (.general n) => m.memory.word (4 * n.toNat)
  | _ => 0#32

section Slots

open Expansion (lda sta)

variable (m) (slot : UInt8) {w : Word}

theorem advance_lda : m.advance (lda slot) = .ok (m.setA (m.memory.word slot.toNat)) := by
  change m.readWord (slotAddr slot) >>= _ = _
  rw [readWord_slot]
  rfl

theorem advance_sta : m.advance (sta slot) = .ok { m with memory := m.memory.setWord slot.toNat m.a } :=
  m.writeWord_slot slot m.a

theorem advance_ldx : m.advance (.direct .ldxDp slot) = .ok (m.setX (m.memory.word slot.toNat)) := by
  change m.readWord (slotAddr slot) >>= _ = _
  rw [readWord_slot]
  rfl

theorem advance_stx :
    m.advance (.direct .stxDp slot) = .ok { m with memory := m.memory.setWord slot.toNat m.x } :=
  m.writeWord_slot slot m.x

theorem advance_stz :
    m.advance (.direct .stzDp slot) = .ok { m with memory := m.memory.setWord slot.toNat 0#32 } :=
  m.writeWord_slot slot 0#32

theorem advance_movr (src : UInt8) : m.advance (.regAlu .movr slot src) =
    .ok { m with memory := m.memory.setWord slot.toNat (m.memory.word src.toNat) } := by
  change (m.readWord (slotAddr src) >>= fun w => m.readWord (slotAddr slot) >>= fun _ => m.writeWord _ w) = _
  rw [readWord_slot, readWord_slot, ok_bind, ok_bind, writeWord_slot]

theorem advance_movrImm {v : Imm} (h : m.operand v = .ok w) : m.advance (.regAluImm .movr slot v) =
    .ok { m with memory := m.memory.setWord slot.toNat w } := by
  have hplain : (Instruction.regAluImm .movr slot v).isPlain = true := by
    cases v with
    | label l => cases h
    | _ => rfl
  rw [advance, if_pos hplain]
  change (m.operand v >>= fun w => m.readWord (slotAddr slot) >>= fun _ => m.writeWord _ w) = _
  rw [h, ok_bind, readWord_slot, ok_bind, writeWord_slot]

theorem writeBytes_eq {m m' : Machine} {addr : Word} {bytes : List UInt8} (h : m.writeBytes addr bytes = .ok m') :
    ∃ mem, m' = { m with memory := mem } := by
  rw [writeBytes] at h
  split at h
  · exact ⟨_, (Except.ok.inj h).symm⟩
  · cases h

theorem push_sp {m m' : Machine} (h : m.push w = .ok m') : m'.sp = m.sp - 4#32 := by
  obtain ⟨m1, hw, h⟩ := bind_eq_ok.mp h
  cases h
  obtain ⟨mem, rfl⟩ := writeBytes_eq hw
  rfl

/-- A push writes to the free word at the stack pointer. -/
theorem advance_pha {m : Machine} (h : m.sp.toNat + 4 ≤ memorySize) : m.advance (.implied .pha) =
    .ok { m with memory := m.memory.setWord m.sp.toNat m.a, sp := m.sp - 4#32 } := by
  change m.writeWord m.sp m.a >>= _ = _
  rw [writeWord_of_le m h]
  rfl

theorem advance_pla {m : Machine} (h : (m.sp + 4#32).toNat + 4 ≤ memorySize) : m.advance (.implied .pla) =
    .ok ({ m with sp := m.sp + 4#32 }.setA (m.memory.word (m.sp + 4#32).toNat)) := by
  change (m.readWord (m.sp + 4#32) >>= _) >>= _ = _
  rw [readWord_of_le m h]
  rfl

end Slots

def combine (m : Machine) (w : Word) : AluOp → Machine
  | .add => m.adc w
  | .sub => m.sbc w
  | .and => m.setA (m.a &&& w)
  | .or => m.setA (m.a ||| w)
  | .xor => m.setA (m.a ^^^ w)

@[simp] theorem combine_memory (m : Machine) (w : Word) (op : AluOp) : (m.combine w op).memory = m.memory := by
  cases op <;> rfl

theorem beside_combine (m : Machine) (w : Word) (op : AluOp) : m.Beside (m.combine w op) := by
  cases op <;> exact ⟨_, _, _, _, rfl⟩

theorem advance_slotOpcode (m : Machine) (op : AluOp) (slot : UInt8) :
    m.advance (.direct (Expansion.slotOpcode op) slot) = .ok (m.combine (m.memory.word slot.toNat) op) := by
  have hread (f : Word → Machine) :
      (m.readWord (slotAddr slot) >>= fun w => pure (f w)) =
        (.ok (f (m.memory.word slot.toNat)) : Checked Machine) := by
    rw [readWord_slot]
    rfl
  cases op <;> exact hread _

theorem advance_constOpcode (m : Machine) (op : AluOp) (w : Word) :
    m.advance (Expansion.withConst (Expansion.constOpcode op) w) = .ok (m.combine w op) := by
  cases op <;> rfl

/-- With the carry as an operation needs it, the accumulator holds the result. -/
theorem carryIn_does (m : Machine) (op : AluOp) : m.Does (Expansion.carryIn op) fun m1 =>
    m1.memory = m.memory ∧ m.Beside m1 ∧ ∀ w, (m1.combine w op).a = op.eval m.a w := by
  cases op with
  | add =>
    refine .cons rfl (.nil ⟨rfl, ⟨_, _, _, _, rfl⟩, fun w => ?_⟩)
    change m.a + w + 0#32 = m.a + w
    rw [BitVec.add_zero]
  | sub =>
    refine .cons rfl (.nil ⟨rfl, ⟨_, _, _, _, rfl⟩, fun w => ?_⟩)
    change m.a + ~~~w + 1#32 = m.a - w
    rw [BitVec.add_assoc, ← BitVec.neg_eq_not_add, BitVec.sub_eq_add_neg]
  | and | or | xor => exact .nil ⟨rfl, ⟨_, _, _, _, rfl⟩, fun w => rfl⟩

end Machine

namespace Expansion

open Machine

variable {d l r : UInt8} {is : List Instruction} {m : Machine} {total offset : Word} {frame : Frame} {index : Nat}

theorem slot_le {n : UInt8} (h : n < 64) : 4 * n.toNat + 4 ≤ memorySize := by
  have : n.toNat < 64 := h
  rw [memorySize]
  omega

/-- The accumulator is stored to the slot of a register. -/
theorem sta_does (hd : d < 64) {m1 : Machine} {w : Word} (ha : m1.a = w) (hm : m1.memory = m.memory)
    (hs : m1.sp = m.sp) : m1.Does [sta (d * 4)] (m.Sets (4 * d.toNat) w) := by
  refine .cons (m1.advance_sta _) (.nil (.of_setWord (slot_le hd) ?_ hs))
  rw [UInt8.toNat_mul_four hd, ha, hm]

/-- Code that can be made. It leaves the value in a register and changes no more than the accumulator, `T` and the flags
beside it, and it faults where there is no value. -/
def Implements (code : Code) (d : UInt8) (value : Machine → Option Word) : Prop :=
  ∃ is, code = .ok is ∧ ∀ m : Machine, match value m with
    | some w => m.Does is (m.Yields (4 * d.toNat) w)
    | none => m.advanceAll is = fault .divisionByZero

theorem Implements.of_does {value : Machine → Word} (h : ∀ m : Machine, m.Does is (m.Yields (4 * d.toNat) (value m))) :
    Implements (.ok is) d fun m => some (value m) :=
  ⟨is, rfl, h⟩

/-- The accumulator is stored to the slot of a register. -/
private theorem sta_yields (hd : d < 64) {m1 : Machine} {w : Word} (ha : m1.a = w) (hm : m1.memory = m.memory)
    (hrest : m.Beside m1) : m1.Does [sta (d * 4)] (m.Yields (4 * d.toNat) w) := by
  refine .cons (m1.advance_sta _) (.nil (.of_setWord (slot_le hd) (hrest.trans ⟨_, _, _, _, rfl⟩) ?_))
  rw [UInt8.toNat_mul_four hd, ha, hm]

theorem loadImm_implements (hd : d < 64) (value : Word) :
    Implements (loadImm (.general d) value) d fun _ => some value := by
  rw [loadImm, Reg.slot_general hd, ok_bind]
  refine .of_does fun m => ?_
  split
  · next hz =>
    refine .cons (m.advance_stz _) (.nil (.of_setWord (slot_le hd) ⟨_, _, _, _, rfl⟩ ?_))
    rw [UInt8.toNat_mul_four hd, hz]
  · refine .cons (m.advance_movrImm _ rfl) (.nil (.of_setWord (slot_le hd) ⟨_, _, _, _, rfl⟩ ?_))
    rw [UInt8.toNat_mul_four hd]

theorem copy_implements (hd : d < 64) (hl : l < 64) :
    Implements (copy (.general d) (.general l)) d fun m => some (m.memory.word (4 * l.toNat)) := by
  change Implements (if Register.general d = Register.general l then pure [] else do
    let source ← (Reg.general l).slot
    let target ← (Reg.general d).slot
    pure [lda source, sta target]) _ _
  split
  · next he =>
    cases he
    exact .of_does fun m => .nil ⟨⟨_, _, _, _, rfl⟩, rfl, fun _ _ _ => rfl⟩
  · rw [Reg.slot_general hl, Reg.slot_general hd]
    refine .of_does fun m => .cons (m.advance_lda _) (sta_yields hd ?_ rfl ⟨_, _, _, _, rfl⟩)
    rw [UInt8.toNat_mul_four hl]
    rfl

/-- The first operand is loaded, combined with the second by an instruction, and stored. -/
private theorem combine_does (op : AluOp) (hd : d < 64) (hl : l < 64) {i : Instruction} {w : Word}
    (hi : ∀ m1 : Machine, m1.memory = m.memory → m1.advance i = .ok (m1.combine w op)) :
    m.Does (lda (l * 4) :: carryIn op ++ [i, sta (d * 4)])
      (m.Yields (4 * d.toNat) (op.eval (m.memory.word (4 * l.toNat)) w)) := by
  refine .cons (m.advance_lda _) ((carryIn_does _ op).append fun m1 ⟨hm, hrest, ha⟩ => .cons (hi m1 hm) ?_)
  refine sta_yields hd ?_ ((m1.combine_memory _ op).trans hm) (.trans ?_ (hrest.trans (m1.beside_combine _ op)))
  · rw [ha, UInt8.toNat_mul_four hl]
    rfl
  · exact ⟨_, _, _, _, rfl⟩

theorem alu_implements (op : AluOp) (hd : d < 64) (hl : l < 64) (hr : r < 64) :
    Implements (alu op (.general d) (.general l) (.general r)) d fun m =>
      some (op.eval (m.memory.word (4 * l.toNat)) (m.memory.word (4 * r.toNat))) := by
  rw [alu, Reg.slot_general hd, Reg.slot_general hl, Reg.slot_general hr]
  refine .of_does fun m => combine_does op hd hl fun m1 hm => ?_
  rw [advance_slotOpcode, UInt8.toNat_mul_four hr, hm]

private theorem modify_does (hd : d < 64) {i : Instruction} (change : Word → Option Bool × Word)
    (hi : m.advance i = m.modifySlot (slotAddr (d * 4)) change) :
    m.Does [i] (m.Yields (4 * d.toNat) (change (m.memory.word (4 * d.toNat))).2) := by
  rw [modifySlot, readWord_slot, ok_bind, UInt8.toNat_mul_four hd] at hi
  generalize change (m.memory.word (4 * d.toNat)) = changed at hi ⊢
  obtain ⟨carry, w⟩ := changed
  dsimp only at hi
  rw [writeWord_slot] at hi
  refine .cons hi (.nil (.of_setWord (slot_le hd) ?_ ?_))
  · cases carry <;> exact ⟨_, _, _, _, rfl⟩
  · rw [UInt8.toNat_mul_four hd]
    cases carry <;> rfl

theorem aluImm_implements (op : AluOp) (hd : d < 64) (hl : l < 64) (imm : Word) :
    Implements (aluImm op (.general d) (.general l) imm) d fun m =>
      some (op.eval (m.memory.word (4 * l.toNat)) imm) := by
  rw [aluImm, Reg.slot_general hd, ok_bind, Reg.slot_general hl, ok_bind]
  have hslot (he : d * 4 = l * 4) : d.toNat = l.toNat := by
    have := congrArg UInt8.toNat he
    rw [UInt8.toNat_mul_four hd, UInt8.toNat_mul_four hl] at this
    omega
  split
  · next hc =>
    simp only [hc.1, hc.2, AluOp.eval, BitVec.add_zero]
    exact copy_implements hd hl
  split
  · next hc =>
    simp only [hc.1, hc.2.1, AluOp.eval, ← hslot hc.2.2]
    exact .of_does fun m => modify_does hd (fun w => (none, w + 1#32)) rfl
  split
  · next hc =>
    simp only [hc.1, hc.2.1, AluOp.eval, ← hslot hc.2.2, ← BitVec.sub_eq_add_neg]
    exact .of_does fun m => modify_does hd (fun w => (none, w - 1#32)) rfl
  · exact .of_does fun m => combine_does op hd hl fun m1 _ => m1.advance_constOpcode op imm

private theorem mulSigned_fst (a b : Word) : (mulSigned a b).1 = a * b := by
  have h (w : Word) : (w.signExtend 64).setWidth 32 = w := by
    ext k hk
    simp only [BitVec.getElem_setWidth, BitVec.getLsbD_signExtend]
    simp [hk, show k < 64 by omega]
  simp [mulSigned, BitVec.setWidth_mul, h]

/-- The multiplier and the divider: the first part of the result is in the accumulator, the second in `T`. -/
private theorem advance_mulDiv (m : Machine) (op : MulDivOp) (slot : UInt8) :
    (op.eval m.a (m.memory.word slot.toNat) = none ∧
      m.advance (.extDirect (mulDivOpcode op).1 slot) = fault .divisionByZero) ∨
    ∃ w m1, op.eval m.a (m.memory.word slot.toNat) = some w ∧
      m.advance (.extDirect (mulDivOpcode op).1 slot) = .ok m1 ∧ m1.memory = m.memory ∧ m.Beside m1 ∧
      (if (mulDivOpcode op).2 then m1.t else m1.a) = w := by
  generalize hv : m.memory.word slot.toNat = v
  have hmul (f : Word → Word → Word × Word) {i : Instruction}
      (h : m.advance i = m.readWord (slotAddr slot) >>= fun w =>
        pure ({ m with t := (f m.a w).2 }.setA (f m.a w).1)) :
      m.advance i = .ok ({ m with t := (f m.a v).2 }.setA (f m.a v).1) := by
    rw [h, readWord_slot, hv]
    rfl
  have hdiv (f : Word → Word → Word × Word) {i : Instruction}
      (h : m.advance i = m.readWord (slotAddr slot) >>= fun w =>
        if w = 0#32 then fault .divisionByZero else pure ({ m with t := (f m.a w).2 }.setA (f m.a w).1)) :
      m.advance i = if v = 0#32 then fault .divisionByZero else
        .ok ({ m with t := (f m.a v).2 }.setA (f m.a v).1) := by
    rw [h, readWord_slot, hv]
    rfl
  cases op with
  | mul => exact .inr ⟨_, _, rfl, hmul mulSigned rfl, rfl, ⟨_, _, _, _, rfl⟩, mulSigned_fst m.a v⟩
  | mulHs => exact .inr ⟨_, _, rfl, hmul mulSigned rfl, rfl, ⟨_, _, _, _, rfl⟩, rfl⟩
  | mulHu => exact .inr ⟨_, _, rfl, hmul mulUnsigned rfl, rfl, ⟨_, _, _, _, rfl⟩, rfl⟩
  | sdiv | srem =>
    have h := hdiv (fun a w => (a.sdiv w, a.srem w)) (i := .extDirect .div slot) rfl
    by_cases hz : v = 0#32
    · rw [if_pos hz] at h
      exact .inl ⟨if_pos hz, h⟩
    · rw [if_neg hz] at h
      exact .inr ⟨_, _, if_neg hz, h, rfl, ⟨_, _, _, _, rfl⟩, rfl⟩
  | udiv | urem =>
    have h := hdiv (fun a w => (a / w, a % w)) (i := .extDirect .divu slot) rfl
    by_cases hz : v = 0#32
    · rw [if_pos hz] at h
      exact .inl ⟨if_pos hz, h⟩
    · rw [if_neg hz] at h
      exact .inr ⟨_, _, if_neg hz, h, rfl, ⟨_, _, _, _, rfl⟩, rfl⟩

theorem mulDiv_implements (op : MulDivOp) (hd : d < 64) (hl : l < 64) (hr : r < 64) :
    Implements (mulDiv op (.general d) (.general l) (.general r)) d fun m =>
      op.eval (m.memory.word (4 * l.toNat)) (m.memory.word (4 * r.toNat)) := by
  refine ⟨lda (l * 4) :: .extDirect (mulDivOpcode op).1 (r * 4) ::
      ((if (mulDivOpcode op).2 then [.extImplied .tta] else []) ++ [sta (d * 4)]), ?_, fun m => ?_⟩
  · rw [mulDiv, Reg.slot_general hd, Reg.slot_general hl, Reg.slot_general hr]
    cases op <;> rfl
  dsimp only
  have hlda := m.advance_lda (l * 4)
  rw [UInt8.toNat_mul_four hl] at hlda
  have hstep := advance_mulDiv (m.setA (m.memory.word (4 * l.toNat))) op (r * 4)
  rw [UInt8.toNat_mul_four hr] at hstep
  change (op.eval (m.memory.word _) (m.memory.word _) = none ∧ _) ∨
    ∃ w m1, op.eval (m.memory.word _) (m.memory.word _) = some w ∧ _ at hstep
  rcases hstep with ⟨he, hx⟩ | ⟨w, m1, he, hx, hm, hrest, hw⟩
  · rw [he]
    simp only [advanceAll_cons, hlda, ok_bind, hx]
    rfl
  · rw [he]
    refine .cons hlda (.cons hx ?_)
    have hrest : m.Beside m1 := .trans ⟨_, _, _, _, rfl⟩ hrest
    cases hsecond : (mulDivOpcode op).2 with
    | true =>
      rw [hsecond] at hw
      exact .cons rfl (sta_yields hd hw hm (hrest.trans ⟨_, _, _, _, rfl⟩))
    | false =>
      rw [hsecond] at hw
      exact sta_yields hd hw hm hrest

private theorem advance_shift (m : Machine) (kind : ShiftKind) (count dst src : UInt8) {n : Nat}
    (hn : (if count = shiftByA then m.a.toNat % 32 else count.toNat) = n) (hlt : n < 32) :
    m.advance (.shift (shiftOp kind) count dst src) =
      .ok { m with memory := m.memory.setWord (4 * dst.toNat) (kind.eval (m.memory.word (4 * src.toNat)) n) } := by
  change m.shift _ count dst src = _
  have hle : ¬ 32 ≤ n := by omega
  have heval (w : Word) : (shiftOp kind).eval w n = kind.eval w n := by cases kind <;> rfl
  simp only [Machine.shift, hn, hle, decide_false, Bool.and_false, Bool.false_eq_true, if_false, setGpr_eq, gpr_eq,
    heval]

private theorem toNat_and_31 (n : UInt8) : (n &&& 31).toNat = n.toNat % 32 := by
  rw [UInt8.toNat_and]
  exact Nat.and_two_pow_sub_one_eq_mod n.toNat 5

theorem shiftWith_eq (hd : d < 64) (hl : l < 64) (setup : List Instruction) (kind : ShiftKind) (count : UInt8) :
    shiftWith setup kind count (.general d) (.general l) =
      .ok (setup ++ [Instruction.shift (shiftOp kind) count d l]) := by
  rw [shiftWith, show Register.number (.general d) = .ok d from if_pos hd,
    show Register.number (.general l) = .ok l from if_pos hl]
  rfl

theorem shift_implements (kind : ShiftKind) (hd : d < 64) (hl : l < 64) {amount : ShiftAmount}
    (ha : ∀ r ∈ amount.regs, ∃ a < 64, r = .general a) : Implements (shift kind (.general d) (.general l) amount) d
      fun m => some (kind.eval (m.memory.word (4 * l.toNat)) (amount.eval m.regs)) := by
  have hshift (m m1 : Machine) (hm : m1.memory = m.memory) (hrest : m.Beside m1) (count : UInt8)
      (hn : (if count = shiftByA then m1.a.toNat % 32 else count.toNat) = amount.eval m.regs) :
      m1.Does [.shift (shiftOp kind) count d l]
        (m.Yields (4 * d.toNat) (kind.eval (m.memory.word (4 * l.toNat)) (amount.eval m.regs))) := by
    have hlt : amount.eval m.regs < 32 := by
      cases amount <;> exact Nat.mod_lt _ (by decide)
    refine .cons (advance_shift m1 kind count d l hn hlt) (.nil (.of_setWord (slot_le hd) ?_ ?_))
    · exact hrest.trans ⟨_, _, _, _, rfl⟩
    · rw [hm]
  cases amount with
  | reg a =>
    obtain ⟨a, hlt, rfl⟩ := ha a (by simp [ShiftAmount.regs])
    change Implements ((Reg.general a).slot >>= fun slot => shiftWith [lda slot] kind shiftByA _ _) _ _
    rw [Reg.slot_general hlt, ok_bind, shiftWith_eq hd hl]
    refine .of_does fun m => .cons (m.advance_lda _)
      (hshift m (m.setA (m.memory.word (a * 4).toNat)) rfl ?_ shiftByA ?_)
    · exact ⟨_, _, _, _, rfl⟩
    rw [if_pos rfl, UInt8.toNat_mul_four hlt]
    rfl
  | imm n =>
    have hn (m : Machine) : (n &&& 31).toNat = (ShiftAmount.imm n).eval m.regs := toNat_and_31 n
    have hslot : Register.slot (.general d) = .ok (d * 4) := Reg.slot_general hd
    simp only [shift, Reg.assigned, ok_bind]
    split
    · next hz =>
      have hzero (w : Word) : kind.eval w 0 = w := by
        cases kind <;> simp [ShiftKind.eval, BitVec.rotateLeft_def, BitVec.rotateRight_def,
          BitVec.ushiftRight_eq_zero (Nat.le_refl 32)]
      simp only [← hn, hz, UInt8.toNat_zero, hzero]
      exact copy_implements hd hl
    split
    · next hc =>
      obtain ⟨h1, rfl, hdl⟩ := hc
      cases hdl
      simp only [hslot, ← hn, h1]
      exact .of_does fun m => modify_does hd (fun w => (some w.msb, w <<< 1)) rfl
    split
    · next hc =>
      obtain ⟨h1, rfl, hdl⟩ := hc
      cases hdl
      simp only [hslot, ← hn, h1]
      exact .of_does fun m => modify_does hd (fun w => (some (w.getLsbD 0), w >>> 1)) rfl
    split
    · next hc =>
      rw [shiftWith_eq hd hl]
      refine .of_does fun m => .cons rfl (hshift m (m.setA 31#32) rfl ⟨_, _, _, _, rfl⟩ shiftByA ?_)
      rw [← hn, hc]
      rfl
    · next hc =>
      rw [shiftWith_eq hd hl]
      exact .of_does fun m => hshift m m rfl ⟨_, _, _, _, rfl⟩ _ (by rw [if_neg hc, hn])

theorem advance_extend (m : Machine) (ext : ExtendOp) (dst src : UInt8) :
    m.advance (.extend ext dst src) =
      .ok { m with memory := m.memory.setWord (4 * dst.toNat) (ext.eval (m.memory.word (4 * src.toNat))) } := by
  change Except.ok (m.setGpr dst (ext.eval (m.gpr src))) = _
  rw [setGpr_eq, gpr_eq]

theorem unary_implements (op : UnaryOp) (hd : d < 64) (hl : l < 64) :
    Implements (unary op (.general d) (.general l)) d fun m => some (op.eval (m.memory.word (4 * l.toNat))) := by
  rw [unary, Reg.slot_general hd, Reg.slot_general hl, ok_bind, ok_bind]
  cases op with
  | neg =>
    refine .of_does fun m => .cons rfl (.cons rfl (.cons (advance_slotOpcode _ .sub _) (sta_yields hd ?_ rfl ?_)))
    · rw [UInt8.toNat_mul_four hl]
      change 0#32 + ~~~(m.memory.word (4 * l.toNat)) + 1#32 = -m.memory.word (4 * l.toNat)
      rw [BitVec.zero_add, BitVec.neg_eq_not_add]
    · exact ⟨_, _, _, _, rfl⟩
  | not =>
    refine .of_does fun m => .cons (m.advance_lda _) (.cons rfl (sta_yields hd ?_ rfl ⟨_, _, _, _, rfl⟩))
    rw [UInt8.toNat_mul_four hl]
    change m.memory.word (4 * l.toNat) ^^^ -1#32 = ~~~(m.memory.word (4 * l.toNat))
    rw [BitVec.neg_one_eq_allOnes, BitVec.xor_allOnes]
  | _ =>
    simp only [extendOp?, Reg.number_general hd, Reg.number_general hl, ok_bind]
    exact .of_does fun m => .cons (advance_extend m _ d l) (.nil (.of_setWord (slot_le hd) ⟨_, _, _, _, rfl⟩ rfl))

theorem addToA_does (m : Machine) (offset : Word) : m.Does (addToA offset) fun m1 =>
    m1.a = m.a + offset ∧ m1.memory = m.memory ∧ m.Rest m1 := by
  rw [addToA]
  split
  · next hz => exact .nil ⟨by rw [hz, BitVec.add_zero], rfl, .refl m⟩
  · refine .cons rfl (.cons rfl (.nil ⟨?_, rfl, _, _, _, _, _, rfl⟩))
    change m.a + offset + 0#32 = m.a + offset
    rw [BitVec.add_zero]

theorem stackPlus_does (m : Machine) (offset : Word) : m.Does (stackPlus offset) fun m1 =>
    m1.a = m.sp + offset ∧ m1.memory = m.memory ∧ m.Rest m1 := by
  have hadd := addToA_does ((m.setX m.sp).setA m.sp) offset
  refine .cons rfl (.cons rfl (hadd.mono fun m1 ⟨ha, hm, hrest⟩ => ⟨ha, hm, .trans ?_ hrest⟩))
  exact ⟨_, _, _, _, _, rfl⟩

theorem slotPlus_does (m : Machine) (slot : UInt8) (offset : Word) : m.Does (slotPlus slot offset) fun m1 =>
    m1.a = m.memory.word slot.toNat + offset ∧ m1.memory = m.memory ∧ m.Rest m1 := by
  refine .cons (m.advance_lda slot) ((addToA_does _ offset).mono fun m1 ⟨ha, hm, hrest⟩ => ⟨ha, hm, .trans ?_ hrest⟩)
  exact ⟨_, _, _, _, _, rfl⟩

theorem loadWord_stack (h : loadWord (.stack total) = .ok is) (hle : (m.sp + total).toNat + 4 ≤ memorySize) :
    m.Does is fun m1 =>
      m1.a = m.memory.word (m.sp + total).toNat ∧ m1.memory = m.memory ∧ m.Rest m1 := by
  obtain rfl : is = stackPlus total ++ [Instruction.implied .tax, .absoluteX .ldaAbsX 0] := (Except.ok.inj h).symm
  refine (stackPlus_does m total).append fun m1 ⟨ha, hm, hrest⟩ => .cons rfl ?_
  have hread : m1.readWord (0#32 + m1.a) = .ok (m1.memory.word (m.sp + total).toNat) := by
    rw [BitVec.zero_add, ha, readWord_of_le _ hle]
  have hlda : (m1.setX m1.a).advance (.absoluteX .ldaAbsX 0) =
      .ok ((m1.setX m1.a).setA (m1.memory.word (m.sp + total).toNat)) := by
    change m1.readWord (0#32 + m1.a) >>= _ = _
    rw [hread]
    rfl
  exact .cons hlda (.nil ⟨congrArg (Memory.word · _) hm, hm, hrest.trans ⟨_, _, _, _, _, rfl⟩⟩)

theorem load_does (hd : d < 64) {ext : Ir.Extension} (hr : frame.resolve index offset = .ok (.sp, total))
    (h : load frame (.general d) .word ext (.frame index) offset = .ok is)
    (hle : (m.sp + total).toNat + 4 ≤ memorySize) :
    m.Does is (m.Sets (4 * d.toNat) (m.memory.word (m.sp + total).toNat)) := by
  simp only [load, Reg.slot_general hd, place, hr, ok_bind] at h
  change (loadWord (.stack total) >>= fun js => pure (js ++ [sta (d * 4)])) = _ at h
  obtain ⟨js, hjs, h⟩ := bind_eq_ok.mp h
  cases h
  exact (loadWord_stack hjs hle).append fun m1 ⟨ha, hm, hrest⟩ => sta_does hd ha hm hrest.sp

/-- A word that goes to an offset from the stack pointer waits in the free word there. -/
theorem storeWord_stack (hl : l < 64) (h : storeWord (l * 4) (.stack total) = .ok is)
    (hsp : m.sp.toNat + 4 ≤ memorySize) (hle : (m.sp + total).toNat + 4 ≤ memorySize) :
    m.Does is fun m1 => m1.memory = (m.memory.setWord m.sp.toNat (m.memory.word (4 * l.toNat))).setWord
      (m.sp + total).toNat (m.memory.word (4 * l.toNat)) ∧ m.Rest m1 := by
  obtain rfl : is = [lda (l * 4), .implied .pha] ++ ([Instruction.implied .tsx, .implied .txa, .implied .clc,
      withConst .adcImm (total + 4#32), .implied .tax] ++ [Instruction.implied .pla, .absoluteX .staAbsX 0]) :=
    (Except.ok.inj h).symm
  generalize hw : m.memory.word (4 * l.toNat) = w
  have hback : m.sp - 4#32 + 4#32 = m.sp := BitVec.sub_add_cancel _ _
  have hpush : m.Does [lda (l * 4), .implied .pha] fun m1 =>
      m1.memory = m.memory.setWord m.sp.toNat w ∧ m1.sp = m.sp - 4#32 ∧ m.Rest { m1 with sp := m.sp } := by
    refine .cons (m.advance_lda _) (.cons (advance_pha hsp) (.nil ⟨?_, rfl, _, _, _, _, _, rfl⟩))
    rw [UInt8.toNat_mul_four hl, hw]
    rfl
  have haddress (m1 : Machine) (hs : m1.sp = m.sp - 4#32) : m1.Does [.implied .tsx, .implied .txa, .implied .clc,
      withConst .adcImm (total + 4#32), .implied .tax] fun m2 =>
        m2.memory = m1.memory ∧ m2.x = m.sp + total ∧ m1.Rest m2 := by
    refine .cons rfl (.cons rfl (.cons rfl (.cons rfl (.cons rfl (.nil ⟨rfl, ?_, _, _, _, _, _, rfl⟩)))))
    change m1.sp + (total + 4#32) + 0#32 = _
    rw [BitVec.add_zero, BitVec.add_comm total, ← BitVec.add_assoc, hs, hback]
  refine hpush.append fun m1 ⟨hm1, hs1, hrest1⟩ => (haddress m1 hs1).append fun m2 ⟨hm2, hx, hrest2⟩ => ?_
  have hpop : m2.sp + 4#32 = m.sp := by rw [hrest2.sp, hs1, hback]
  have hpla := advance_pla (m := m2) (by rwa [hpop])
  have hword : m2.memory.word m.sp.toNat = w := by rw [hm2, hm1, Memory.word_setWord_self hsp]
  rw [hpop, hword] at hpla
  have hsta : ({ m2 with sp := m.sp }.setA w).advance (.absoluteX .staAbsX 0) =
      .ok { { m2 with sp := m.sp }.setA w with memory := m2.memory.setWord (m.sp + total).toNat w } := by
    have haddr : 0#32 + m2.x = m.sp + total := by rw [BitVec.zero_add, hx]
    change writeWord _ (0#32 + m2.x) w = _
    rw [haddr, writeWord_of_le _ hle]
    rfl
  refine .cons hpla (.cons hsta (.nil ⟨by rw [hm2, hm1], ?_⟩))
  exact (hrest1.trans (hrest2.withSp m.sp)).trans ⟨_, _, _, _, _, rfl⟩

theorem store_does (hl : l < 64) (hr : frame.resolve index offset = .ok (.sp, total))
    (h : store frame (.general l) .word (.frame index) offset = .ok is) (hsp : m.sp.toNat + 4 ≤ memorySize)
    (hle : (m.sp + total).toNat + 4 ≤ memorySize) :
    m.Does is (m.Stores (m.sp + total).toNat (m.memory.word (4 * l.toNat))) := by
  simp only [store, Reg.slot_general hl, place, hr, ok_bind] at h
  refine (storeWord_stack hl h hsp hle).mono fun m1 ⟨hm1, hrest⟩ => ⟨hrest.sp, ?_, fun b hb ha hfree => ?_⟩
  · rw [hm1, Memory.word_setWord_self hle]
  · rw [hm1, Memory.word_setWord_ne hle hb ha, Memory.word_setWord_ne hsp hb hfree]

end Expansion

end DirectPage
