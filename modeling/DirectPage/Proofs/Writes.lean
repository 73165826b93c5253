import DirectPage.Proofs.Checked
import DirectPage.Proofs.Memory
import DirectPage.Simulator.Step

/-! Where instructions write to memory, and how they move the stack pointer.

A slot that an instruction names as its result is written, and a word of the base page that is neither
this slot nor where an address leads stays as it is. -/
namespace DirectPage

def Machine.destination? (m : Machine) : Instruction → Option (Word × Nat)
  | .implied .pha | .implied .phx | .implied .phy | .absolute .jsr _ | .direct .jsrInd _ => some (m.sp, 4)
  | .direct .staIndY slot => some (m.memory.word slot.toNat + m.y, 4)
  | .direct .staInd slot => some (m.memory.word slot.toNat, 4)
  | .direct op slot => if Instruction.writesSlot op then some (slotAddr slot, 4) else none
  | .absolute .staAbs addr => (m.operand addr).toOption.map (·, 4)
  | .absoluteX .staAbsX base => some (BitVec.ofNat 32 base.toNat + m.x, 4)
  | .regAlu op dst _ | .regAluImm op dst _ => if op = .cmpr then none else some (slotAddr dst, 4)
  | .shift _ _ dst _ | .extend _ dst _ => some (gprAddr dst, 4)
  | .extDirect .stB slot => some (m.memory.word slot.toNat + m.y, 1)
  | .extDirect .stW slot => some (m.memory.word slot.toNat + m.y, 2)
  | .floatMem .store prec _ base => some (m.gpr base, prec.bytes)
  | .floatMemAbs .store prec _ addr => (m.operand addr).toOption.map (·, prec.bytes)
  | _ => none

/-- By how much an instruction moves the stack pointer, unless the machine decides. -/
def Instruction.spMove? : Instruction → Option Word
  | implied .pha | implied .phx | implied .phy => some (-4#32)
  | implied .pla | implied .plx | implied .ply => some 4#32
  | implied .txs | implied .rts | absolute .jsr _ | direct .jsrInd _ => none
  | _ => some 0#32

def spMove? : List Instruction → Option Word
  | [] => some 0#32
  | i :: is => do return (← i.spMove?) + (← spMove? is)

theorem spMove?_append (is js : List Instruction) :
    spMove? (is ++ js) = do return (← spMove? is) + (← spMove? js) := by
  induction is with
  | nil => rcases h : spMove? js with _ | w <;> simp [spMove?, h]
  | cons i is ih =>
    rw [List.cons_append, spMove?, spMove?, ih]
    rcases i.spMove? with _ | v
    · rfl
    rcases spMove? is with _ | w
    · rfl
    rcases spMove? js with _ | u
    · rfl
    exact congrArg some (BitVec.add_assoc v w u).symm

namespace Machine

def WritesTo (m m' : Machine) : Option (Word × Nat) → Prop
  | none => m'.memory = m.memory
  | some (addr, n) => addr.toNat + n ≤ memorySize ∧
      m'.memory = m.memory.putAt addr.toNat (m'.memory.bytesAt addr.toNat n)

structure Changes (m m' : Machine) (dest : Option (Word × Nat)) (move : Option Word) : Prop where
  memory : WritesTo m m' dest
  sp : ∀ w, move = some w → m'.sp = m.sp + w

variable {m m' : Machine} {addr : Word} {dst slot : UInt8} {op : Opcode}

theorem Changes.still {dest : Option (Word × Nat)} (hmem : WritesTo m m' dest) (hsp : m'.sp = m.sp) :
    Changes m m' dest (some 0#32) :=
  ⟨hmem, fun _ hw => by cases hw; rw [hsp, BitVec.add_zero]⟩

private theorem writeBytes_changes {bytes : List UInt8} (h : m.writeBytes addr bytes = .ok m') :
    Changes m m' (some (addr, bytes.length)) (some 0#32) := by
  simp only [writeBytes] at h
  split at h
  · next hle =>
    cases h
    exact .still ⟨hle, congrArg (m.memory.putAt addr.toNat) (Memory.bytesAt_putAt hle).symm⟩ rfl
  · cases h

private theorem push_changes {value : Word} (h : m.push value = .ok m') :
    Changes m m' (some (m.sp, 4)) (some (-4#32)) := by
  obtain ⟨m1, h1, h⟩ := bind_eq_ok.mp h
  cases h
  have hwrite := writeBytes_changes h1
  refine ⟨hwrite.memory, fun _ hw => ?_⟩
  cases hw
  change m1.sp - 4#32 = _
  rw [hwrite.sp _ rfl, BitVec.add_zero, BitVec.sub_eq_add_neg]

private theorem modifySlot_changes {change : Word → Option Bool × Word} (h : m.modifySlot addr change = .ok m') :
    Changes m m' (some (addr, 4)) (some 0#32) := by
  obtain ⟨w, -, h⟩ := bind_eq_ok.mp h
  obtain ⟨m1, h1, h⟩ := bind_eq_ok.mp h
  cases h
  generalize change w = c at h1
  obtain ⟨_ | c, r⟩ := c
  · exact ⟨(writeBytes_changes h1).memory, (writeBytes_changes h1).sp⟩
  · have hwrite := writeBytes_changes (m := m.setCarry c) h1
    exact ⟨hwrite.memory, hwrite.sp⟩

private theorem setGpr_changes (n : UInt8) (w : Word) :
    Changes m (m.setGpr n w) (some (gprAddr n, 4)) (some 0#32) := by
  have hn := n.toNat_lt
  have hw := m.writeWord_of_le (a := gprAddr n) (by rw [gprAddr_toNat, memorySize]; omega) w
  have hs : m.setGpr n w = { m with memory := m.memory.setWord (gprAddr n).toNat w } := by
    rw [setGpr_eq, gprAddr_toNat]
  rw [hs]
  exact writeBytes_changes hw

theorem shift_ok {op : ShiftOp} {count src : UInt8} (h : m.shift op count dst src = .ok m') :
    ∃ w, m' = m.setGpr dst w := by
  simp only [shift] at h
  generalize hn : (if count = shiftByA then m.a.toNat % 32 else count.toNat) = n at h
  by_cases hb : (op.isBounded && 32 ≤ n) = true
  · rw [if_pos hb] at h
    cases h
  · rw [if_neg hb] at h
    cases h
    exact ⟨_, rfl⟩

private theorem implied_changes (h : m.implied op = .ok m') :
    Changes m m' (m.destination? (.implied op)) (Instruction.implied op).spMove? := by
  cases op with
  | pha | phx | phy => exact push_changes h
  | pla | plx | ply | rts =>
    obtain ⟨⟨w, m1⟩, hp, h⟩ := bind_eq_ok.mp h
    obtain ⟨v, -, hp⟩ := bind_eq_ok.mp hp
    cases hp
    cases h
    exact ⟨rfl, fun _ hw => by cases hw <;> rfl⟩
  | txs =>
    cases h
    exact ⟨rfl, nofun⟩
  | _ =>
    cases h
    try exact .still rfl rfl

private theorem direct_changes (h : m.direct op slot = .ok m') :
    Changes m m' (m.destination? (.direct op slot)) (Instruction.direct op slot).spMove? := by
  cases op with
  | staDp | stxDp | styDp | stzDp => exact writeBytes_changes h
  | incDp | decDp | aslDp | lsrDp | rolDp | rorDp =>
    simp only [direct] at h
    exact modifySlot_changes h
  | staInd | staIndY =>
    obtain ⟨ptr, hr, h⟩ := bind_eq_ok.mp h
    rw [readWord_slot] at hr
    cases hr
    exact writeBytes_changes h
  | ldaInd | ldaIndY =>
    obtain ⟨ptr, -, h⟩ := bind_eq_ok.mp h
    obtain ⟨w, -, h⟩ := bind_eq_ok.mp h
    cases h
    exact .still rfl rfl
  | jsrInd =>
    obtain ⟨target, -, h⟩ := bind_eq_ok.mp h
    obtain ⟨m1, hp, h⟩ := bind_eq_ok.mp h
    cases h
    exact ⟨(push_changes hp).memory, nofun⟩
  | ldaDp | ldxDp | ldyDp | adcDp | sbcDp | andDp | oraDp | eorDp | cmpDp =>
    obtain ⟨w, -, h⟩ := bind_eq_ok.mp h
    cases h
    exact .still rfl rfl
  | _ => cases h

private theorem regAlu_changes {op : RegAluOp} {w : Word} (h : m.regAlu op dst w = .ok m') :
    Changes m m' (if op = .cmpr then none else some (slotAddr dst, 4)) (some 0#32) := by
  obtain ⟨d, -, h⟩ := bind_eq_ok.mp h
  cases op with
  | cmpr =>
    cases h
    exact .still rfl rfl
  | _ => exact writeBytes_changes h

private theorem extDirect_changes {op : ExtOpcode} (h : m.extDirect op slot = .ok m') :
    Changes m m' (m.destination? (.extDirect op slot)) (some 0#32) := by
  obtain ⟨w, hr, h⟩ := bind_eq_ok.mp h
  rw [readWord_slot] at hr
  cases hr
  cases op with
  | stB | stW =>
    obtain ⟨m1, h1, h⟩ := bind_eq_ok.mp h
    cases h
    exact ⟨(writeBytes_changes h1).memory, (writeBytes_changes h1).sp⟩
  | ldB | ldW =>
    obtain ⟨bytes, -, h⟩ := bind_eq_ok.mp h
    cases h
    exact .still rfl rfl
  | div | divu =>
    simp only at h
    split at h
    · cases h
    · cases h
      exact .still rfl rfl
  | mul | mulu =>
    cases h
    exact .still rfl rfl
  | tta => cases h

private theorem bytesIn_length (prec : Precision) (x : Double) : (x.bytesIn prec).length = prec.bytes := by
  cases prec <;> rfl

private theorem floatMem_changes {op : FloatMemOp} {prec : Precision} {freg : UInt8}
    (h : m.floatMem op prec freg addr = .ok m') :
    Changes m m' (if op = .store then some (addr, prec.bytes) else none) (some 0#32) := by
  cases op with
  | load =>
    obtain ⟨x, -, h⟩ := bind_eq_ok.mp h
    cases h
    exact .still rfl rfl
  | store =>
    have := writeBytes_changes h
    rwa [bytesIn_length] at this

/-- An instruction changes memory where its destination is, and moves the stack pointer by its own amount. -/
theorem exec_changes {i : Instruction} (h : m.exec i = .ok m') : Changes m m' (m.destination? i) i.spMove? := by
  cases i with
  | implied op => exact implied_changes h
  | direct op slot => exact direct_changes h
  | immediate op value =>
    obtain ⟨w, -, h⟩ := bind_eq_ok.mp h
    cases op <;> cases h <;> exact .still rfl rfl
  | absolute op addr =>
    obtain ⟨w, hw, h⟩ := bind_eq_ok.mp h
    cases op with
    | ldaAbs =>
      obtain ⟨v, -, h⟩ := bind_eq_ok.mp h
      cases h
      exact .still rfl rfl
    | staAbs =>
      simp only [destination?, hw, Except.toOption, Option.map_some]
      exact writeBytes_changes h
    | jsr =>
      obtain ⟨m1, hp, h⟩ := bind_eq_ok.mp h
      cases h
      exact ⟨(push_changes hp).memory, nofun⟩
    | jmp =>
      cases h
      exact .still rfl rfl
    | _ => cases h
  | absoluteX op base =>
    cases op with
    | ldaAbsX =>
      obtain ⟨v, -, h⟩ := bind_eq_ok.mp h
      cases h
      exact .still rfl rfl
    | staAbsX => exact writeBytes_changes h
    | _ => cases h
  | branch cond offset | branchLong cond offset =>
    cases h
    change Changes m (if cond.taken m.flags then m.jumpBy offset else m) none (some 0#32)
    split <;> exact .still rfl rfl
  | bra offset | brl offset =>
    cases h
    exact .still rfl rfl
  | regAlu op dst src | regAluImm op dst src =>
    obtain ⟨w, -, h⟩ := bind_eq_ok.mp h
    exact regAlu_changes h
  | shift op count dst src =>
    obtain ⟨w, rfl⟩ := shift_ok h
    exact setGpr_changes dst w
  | extend op dst src =>
    cases h
    exact setGpr_changes dst _
  | extImplied op =>
    cases op <;> cases h
    exact .still rfl rfl
  | extDirect op slot => exact extDirect_changes h
  | float op prec dst src =>
    cases h
    cases op <;> exact .still rfl rfl
  | floatMem op prec freg base =>
    have := floatMem_changes h
    cases op <;> exact this
  | floatMemAbs op prec freg addr =>
    obtain ⟨w, hw, h⟩ := bind_eq_ok.mp h
    have := floatMem_changes h
    cases op with
    | load => exact this
    | store =>
      simp only [destination?, hw, Except.toOption, Option.map_some]
      exact this

variable {i : Instruction} {d : UInt8}

/-- What an instruction writes is its slot; a register number that has none leads past the base page. -/
theorem destination?_of_destSlot? (m : Machine) (h : i.destSlot? = some d) :
    ∃ a, m.destination? i = some (a, 4) ∧ (a = slotAddr d ∨ 256 ≤ a.toNat) := by
  have hgpr (n : UInt8) : gprAddr n = slotAddr (n * 4) ∨ 256 ≤ (gprAddr n).toNat := by
    have hn := n.toNat_lt
    by_cases hlt : n.toNat < 64
    · refine .inl (congrArg (BitVec.ofNat 32) ?_)
      rw [UInt8.toNat_mul]
      change 4 * n.toNat = n.toNat * 4 % 256
      omega
    · rw [gprAddr_toNat]
      exact .inr (by omega)
  cases i with
  | direct op slot =>
    rw [Instruction.destSlot?] at h
    split at h
    · next hop =>
      cases h
      cases op <;> first | exact ⟨_, rfl, .inl rfl⟩ | cases hop
    · cases h
  | regAlu op dst src | regAluImm op dst src =>
    rw [Instruction.destSlot?] at h
    split at h
    · cases h
    · next hop =>
      cases h
      exact ⟨_, if_neg hop, .inl rfl⟩
  | shift op count dst src | extend op dst src =>
    cases h
    exact ⟨_, rfl, hgpr dst⟩
  | _ => cases h

/-- A word of the base page stays unless it is in the slot of the result or an address leads to it. -/
theorem exec_word {a : Nat} (h : m.exec i = .ok m') (ha : a + 4 ≤ 256)
    (hslot : ∀ d, i.destSlot? = some d → d.toNat + 4 ≤ a ∨ a + 4 ≤ d.toNat)
    (hfar : i.destSlot? = none → ∀ addr n, m.destination? i = some (addr, n) →
      addr.toNat + n ≤ a ∨ a + 4 ≤ addr.toNat) : m'.memory.word a = m.memory.word a := by
  have hwrites := (exec_changes h).memory
  cases hdest : m.destination? i with
  | none =>
    rw [hdest] at hwrites
    exact congrArg (Memory.word · a) hwrites
  | some dest =>
    obtain ⟨addr, n⟩ := dest
    rw [hdest] at hwrites
    obtain ⟨hle, hmem⟩ := hwrites
    have hclear : addr.toNat + n ≤ a ∨ a + 4 ≤ addr.toNat := by
      cases hd : i.destSlot? with
      | none => exact hfar hd addr n hdest
      | some d =>
        obtain ⟨b, hb, hcase⟩ := m.destination?_of_destSlot? hd
        cases hdest.symm.trans hb
        rcases hcase with rfl | hpast
        · rw [slotAddr_toNat]
          exact hslot d hd
        · exact .inr (by omega)
    rw [hmem]
    have hlength := m'.memory.length_bytesAt addr.toNat n
    exact Memory.word_congr fun b hb hlt => Memory.get_putAt_ne (by omega) (by rw [memorySize]; omega) (by omega)

end Machine

end DirectPage
