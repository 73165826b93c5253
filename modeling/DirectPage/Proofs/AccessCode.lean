import Mathlib.Order.Interval.Set.Basic
import Mathlib.Order.Nat
import DirectPage.Proofs.FrameAddress

/-! Loads and stores reach the bytes that their base and offset name, and no others.

For an access that is not from a pointer in a register, an address is first put into the scratch register. A word that
goes to an offset from the stack pointer waits in the free word there. Nothing else is written. -/
namespace DirectPage

def Width.bytes : Width → Nat
  | byte => 1
  | half => 2
  | word => 4

def Ir.Extension.eval (ext : Ir.Extension) (width : Width) (n : Nat) : Word :=
  match ext with
  | .zero => BitVec.ofNat 32 n
  | .sign => (BitVec.ofNat (8 * width.bytes) n).signExtend 32

theorem Ir.Extension.eval_word (ext : Ir.Extension) (n : Nat) : ext.eval .word n = BitVec.ofNat 32 n := by
  cases ext with
  | zero => rfl
  | sign => exact BitVec.signExtend_eq _

def numberOf (bytes : List UInt8) : Nat := bytes.foldr (fun b n => b.toNat + 256 * n) 0

def Memory.number (mem : Memory) (a n : Nat) : Nat := numberOf (mem.bytesAt a n)

theorem numberOf_low (w : Word) (width : Width) :
    numberOf (w.bytes.take width.bytes) = w.toNat % 256 ^ width.bytes := by
  have h := w.isLt
  cases width <;>
    simp only [Width.bytes, Word.bytes, List.take, numberOf, List.foldr, UInt8.toNat_ofNat', Nat.reducePow] <;> omega

theorem Memory.ofNat_number_word (mem : Memory) (a : Nat) : BitVec.ofNat 32 (mem.number a 4) = mem.word a := by
  simp only [number, numberOf, bytesAt, List.foldr, word, Word.ofBytes, Nat.add_assoc, Nat.reduceAdd]
  congr 1
  omega

namespace Machine

variable {m m' : Machine} {free : Set Nat} {w : Word} {a : Nat}

theorem Does.steps {is : List Instruction} {P : Machine → Prop} (h : m.Does is P) (hm : m.Holds is) :
    ∃ m', m.steps is.length = .ok (m'.placed (m.pc + BitVec.ofNat 32 (encodeAll is).length) m.code) ∧ P m' := by
  obtain ⟨m', hrun, hp⟩ := h
  exact ⟨m', steps_ok hm hrun, hp⟩

structure Alters (free : Set Nat) (m m' : Machine) : Prop where
  rest : m.Rest m'
  bytes : ∀ b < memorySize, b ∉ free → m'.memory.get b = m.memory.get b

namespace Alters

variable {free free' : Set Nat} {m m1 m' : Machine} {a n : Nat}

theorem of_memory_eq (h : m.Rest m') (hm : m'.memory = m.memory) : m.Alters free m' := ⟨h, fun _ _ _ => by rw [hm]⟩

theorem mono (h : m.Alters free m') (hsub : free ⊆ free') : m.Alters free' m' :=
  ⟨h.rest, fun b hb hfree => h.bytes b hb fun hb' => hfree (hsub hb')⟩

theorem trans (h : m.Alters free m1) (h' : m1.Alters free' m') : m.Alters (free ∪ free') m' where
  rest := h.rest.trans h'.rest
  bytes b hb hfree := by
    rw [h'.bytes b hb fun hb' => hfree (.inr hb'), h.bytes b hb fun hb' => hfree (.inl hb')]

theorem of_putAt {bytes : List UInt8} (h : m.Rest m') (hm : m'.memory = m.memory.putAt a bytes)
    (ha : a + bytes.length ≤ memorySize) : m.Alters (Set.Ico a (a + bytes.length)) m' := by
  refine ⟨h, fun b hb hfree => ?_⟩
  have hout : b < a ∨ a + bytes.length ≤ b := by
    rw [Set.mem_Ico] at hfree
    omega
  rw [hm, Memory.get_putAt_ne ha hb hout]

theorem of_setWord {w : Word} (h : m.Rest m') (hm : m'.memory = m.memory.setWord a w) (ha : a + 4 ≤ memorySize) :
    m.Alters (Set.Ico a (a + 4)) m' :=
  of_putAt h hm ha

theorem number (h : m.Alters (Set.Ico 124 128) m') (hin : a + n ≤ memorySize) (hclear : a + n ≤ 124 ∨ 128 ≤ a) :
    m'.memory.number a n = m.memory.number a n := by
  refine congrArg numberOf (Memory.bytesAt_congr fun b hb hlt => h.bytes b (by omega) ?_)
  rw [Set.mem_Ico]
  omega

/-- The registers beside the scratch register are as before. -/
theorem slot (h : m.Alters (Set.Ico 124 128) m') {l : UInt8} (hl : l < 64) (hne : l ≠ 31) :
    m'.memory.word (l * 4).toNat = m.memory.word (4 * l.toNat) := by
  have hnat : l.toNat ≠ 31 := fun he => hne (UInt8.toNat_inj.mp he)
  have hlt : l.toNat < 64 := hl
  rw [UInt8.toNat_mul_four hl]
  refine Memory.word_congr fun b hb hlt => h.bytes b (by rw [memorySize]; omega) ?_
  rw [Set.mem_Ico]
  omega

end Alters

structure Fills (free : Set Nat) (a : Nat) (width : Width) (w : Word) (m m' : Machine) : Prop where
  number : m'.memory.number a width.bytes = w.toNat % 256 ^ width.bytes
  alters : m.Alters (free ∪ Set.Ico a (a + width.bytes)) m'

theorem Fills.of_putAt {m1 : Machine} {width : Width} (h : m.Alters free m1) (hrest : m1.Rest m')
    (hm : m'.memory = m1.memory.putAt a (w.bytes.take width.bytes)) (ha : a + width.bytes ≤ memorySize) :
    m.Fills free a width w m' := by
  have hlen : (w.bytes.take width.bytes).length = width.bytes := by cases width <;> rfl
  have hread := @Memory.bytesAt_putAt m1.memory a (w.bytes.take width.bytes) (by rwa [hlen])
  have halters := Alters.of_putAt hrest hm (by rwa [hlen])
  rw [hlen] at hread halters
  exact ⟨by rw [hm, Memory.number, hread, numberOf_low], h.trans halters⟩

theorem Fills.word (h : m.Fills free a .word w m') : m'.memory.word a = w := by
  rw [← Memory.ofNat_number_word, show m'.memory.number a 4 = w.toNat % 2 ^ 32 from h.number,
    Nat.mod_eq_of_lt w.isLt, BitVec.ofNat_toNat, BitVec.setWidth_eq]

end Machine

namespace Expansion

open Machine

variable {m : Machine} {frame : Frame} {is : List Instruction} {p : Place} {a : Word} {l d : UInt8} {width : Width}
  {base : MemBase} {offset : Word}

section Places

def Place.target? (m : Machine) : Place → Option Word
  | .pointer slot offset | .based slot offset => some (m.memory.word slot.toNat + offset)
  | .stack offset => some (m.sp + offset)
  | .absolute s => (m.symbols.lookup s.name).map (· + s.addend)

theorem operand_of_target {s : SymbolRef} (h : (Place.absolute s).target? m = some a) :
    m.operand (.symbol s) = .ok a := by
  obtain ⟨base, hbase, rfl⟩ := Option.map_eq_some_iff.mp h
  rw [operand, hbase]
  rfl

theorem sta_alters (m : Machine) (slot : UInt8) : m.Does [sta slot] fun m' =>
    m'.memory.word slot.toNat = m.a ∧ m.Alters (Set.Ico slot.toNat (slot.toNat + 4)) m' := by
  have hslot : slot.toNat + 4 ≤ memorySize := by
    have := slot.toNat_lt
    rw [memorySize]
    omega
  refine .cons (m.advance_sta slot) (.nil ⟨Memory.word_setWord_self hslot _, ?_⟩)
  exact .of_setWord ⟨_, _, _, _, _, rfl⟩ rfl hslot

/-- A pointer to a place is made in the scratch register, if it is in none. -/
theorem pointerTo_reaches {setup : List Instruction} {ptr : UInt8} {y : Word}
    (h : pointerTo p = .ok (setup, ptr, y)) (ha : p.target? m = some a) :
    m.Does setup fun m1 => m1.memory.word ptr.toNat + y = a ∧ m.Alters (Set.Ico 124 128) m1 := by
  have hscratch {js : List Instruction} (hjs : m.Does js fun m1 => m1.a = a ∧ m1.memory = m.memory ∧ m.Rest m1) :
      m.Does (js ++ [sta 124]) fun m1 => m1.memory.word 124 + 0#32 = a ∧ m.Alters (Set.Ico 124 128) m1 := by
    refine hjs.append fun m1 ⟨hw, hm, hrest⟩ => (sta_alters m1 124).mono fun m2 ⟨hvalue, halters⟩ => ?_
    have hsame : m.Alters (Set.Ico 124 128) m1 := .of_memory_eq hrest hm
    exact ⟨by rw [BitVec.add_zero, ← hw, ← hvalue]; rfl, (hsame.trans halters).mono (Set.union_self _).subset⟩
  cases p with
  | pointer slot offset =>
    cases h
    exact .nil ⟨Option.some.inj ha, .of_memory_eq (.refl m) rfl⟩
  | stack offset =>
    cases h
    cases ha
    exact hscratch (stackPlus_does m offset)
  | based slot offset =>
    cases h
    cases ha
    exact hscratch (slotPlus_does m slot offset)
  | absolute s =>
    cases h
    refine .cons (m.advance_movrImm 124 (operand_of_target ha)) (.nil ⟨?_, ?_⟩)
    · exact (BitVec.add_zero _).trans (Memory.word_setWord_self (by decide) a)
    · exact .of_setWord ⟨_, _, _, _, _, rfl⟩ rfl (by decide)

def target? (m : Machine) (frame : Frame) (base : MemBase) (offset : Word) : Option Word :=
  match base with
  | .reg r => some (m.regs r + offset)
  | .frame i => frame.address? m.stackRegs i offset
  | .sp => some (m.sp + offset)
  | .symbol s => (m.symbols.lookup s.name).map (· + s.addend + offset)

def Place.isStack : Place → Bool
  | stack _ => true
  | _ => false

def onStack (frame : Frame) : MemBase → Bool
  | .sp => true
  | .frame _ => !frame.frameBase
  | _ => false

theorem place_target (hregs : ∀ r ∈ base.regs, ∃ n < 64, r = .general n) (h : place frame base offset = .ok p) :
    p.target? m = target? m frame base offset ∧ p.isStack = onStack frame base := by
  cases base with
  | reg r =>
    obtain ⟨n, hn, rfl⟩ := hregs r (by simp [MemBase.regs])
    simp only [place, Reg.slot_general hn, ok_bind] at h
    cases h
    rw [Place.target?, UInt8.toNat_mul_four hn]
    exact ⟨rfl, rfl⟩
  | sp =>
    cases h
    exact ⟨rfl, rfl⟩
  | symbol s =>
    obtain ⟨addend, hadd, h⟩ := bind_eq_ok.mp h
    cases h
    have hsum : addend = s.addend + offset := by
      have hsome := orFail_eq_ok.mp hadd
      rw [Word.ofSigned?] at hsome
      split at hsome
      · rw [← Option.some.inj hsome, BitVec.ofInt_add, BitVec.ofInt_toInt, BitVec.ofInt_toInt]
      · cases hsome
    subst hsum
    refine ⟨?_, rfl⟩
    rw [Place.target?, target?]
    simp only [BitVec.add_assoc]
  | frame i =>
    obtain ⟨⟨base, total⟩, hr, h⟩ := bind_eq_ok.mp h
    have hbase := Frame.resolve_base hr
    rw [target?, Frame.address?, hr, onStack]
    rw [Frame.base] at hbase
    cases hb : frame.frameBase with
    | true =>
      rw [hb] at hbase
      subst hbase
      cases h
      exact ⟨rfl, rfl⟩
    | false =>
      rw [hb] at hbase
      subst hbase
      cases h
      exact ⟨rfl, rfl⟩

end Places

section Loads

theorem loadWord_reads (h : loadWord p = .ok is) (ha : p.target? m = some a) (hle : a.toNat + 4 ≤ memorySize)
    (hclear : a.toNat + 4 ≤ 124 ∨ 128 ≤ a.toNat) :
    m.Does is fun m1 => m1.a = BitVec.ofNat 32 (m.memory.number a.toNat 4) ∧ m.Alters (Set.Ico 124 128) m1 := by
  have hpointer (hp : (pointerTo p >>= fun x =>
        pure (x.1 ++ [withConst .ldyImm x.2.2, .direct .ldaIndY x.2.1])) = .ok is) :
      m.Does is fun m1 => m1.a = BitVec.ofNat 32 (m.memory.number a.toNat 4) ∧ m.Alters (Set.Ico 124 128) m1 := by
    obtain ⟨⟨setup, ptr, y⟩, hsetup, hp⟩ := bind_eq_ok.mp hp
    cases hp
    refine (pointerTo_reaches hsetup ha).append ?_
    rintro m1 ⟨hptr, halters⟩
    refine .cons rfl ?_
    have hlda : (m1.setY y).advance (.direct .ldaIndY ptr) = .ok ((m1.setY y).setA (m1.memory.word a.toNat)) := by
      change (m1.readWord (slotAddr ptr) >>= fun q => m1.readWord (q + y) >>= _) = _
      rw [readWord_slot, ok_bind, hptr, readWord_of_le _ hle]
      rfl
    refine .cons hlda (.nil ⟨?_, halters.rest.trans ⟨_, _, _, _, _, rfl⟩, halters.bytes⟩)
    rw [← halters.number hle hclear, Memory.ofNat_number_word]
    rfl
  cases p with
  | stack offset =>
    cases ha
    refine (loadWord_stack h hle).mono fun m1 ⟨hw, hm, hrest⟩ => ⟨?_, .of_memory_eq hrest hm⟩
    rw [hw, Memory.ofNat_number_word]
  | pointer slot offset => exact hpointer h
  | based slot offset => exact hpointer h
  | absolute s =>
    cases h
    have hlda : m.advance (.absolute .ldaAbs (.symbol s)) = .ok (m.setA (m.memory.word a.toNat)) := by
      change (m.operand (.symbol s) >>= fun addr => m.readWord addr >>= _) = _
      rw [operand_of_target ha, ok_bind, readWord_of_le _ hle]
      rfl
    exact .cons hlda (.nil ⟨(Memory.ofNat_number_word _ _).symm, .of_memory_eq ⟨_, _, _, _, _, rfl⟩ rfl⟩)

variable {sext : ExtendOp} {op : ExtOpcode} {m1 : Machine} {w : Word}

theorem advance_narrowLoad (hop : narrowLoad? width = some (op, sext)) {ptr : UInt8}
    (hptr : m.memory.word ptr.toNat + m.y = a) (hle : a.toNat + width.bytes ≤ memorySize) :
    m.advance (.extDirect op ptr) = .ok (m.setA (BitVec.ofNat 32 (m.memory.number a.toNat width.bytes))) := by
  have hread : m.readBytes a width.bytes = .ok (m.memory.bytesAt a.toNat width.bytes) := if_pos hle
  cases width with
  | byte =>
    cases hop
    change (m.readWord (slotAddr ptr) >>= fun q => m.readBytes (q + m.y) Width.byte.bytes >>= _) = _
    rw [readWord_slot, ok_bind, hptr, hread]
    rfl
  | half =>
    cases hop
    change (m.readWord (slotAddr ptr) >>= fun q => m.readBytes (q + m.y) Width.half.bytes >>= _) = _
    rw [readWord_slot, ok_bind, hptr, hread]
    rfl
  | word => cases hop

theorem eval_narrowLoad (hop : narrowLoad? width = some (op, sext)) (n : Nat) :
    sext.eval (BitVec.ofNat 32 n) = Ir.Extension.sign.eval width n := by
  cases width with
  | byte =>
    cases hop
    exact congrArg (BitVec.signExtend 32) (BitVec.setWidth_ofNat_of_le (by decide) n)
  | half =>
    cases hop
    exact congrArg (BitVec.signExtend 32) (BitVec.setWidth_ofNat_of_le (by decide) n)
  | word => cases hop

structure Leaves (d : UInt8) (w : Word) (m m' : Machine) : Prop where
  value : m'.regs (.general d) = w
  alters : m.Alters (Set.Ico 124 128 ∪ Set.Ico (4 * d.toNat) (4 * d.toNat + 4)) m'

theorem Leaves.of_setWord {m' : Machine} (hd : d < 64)
    (h : m.Alters (Set.Ico 124 128 ∪ Set.Ico (4 * d.toNat) (4 * d.toNat + 4)) m1) (hrest : m1.Rest m')
    (hm : m'.memory = m1.memory.setWord (4 * d.toNat) w) : Leaves d w m m' where
  value := by
    rw [regs, hm, Memory.word_setWord_self (slot_le hd)]
  alters := (h.trans (.of_setWord hrest hm (slot_le hd))).mono (Set.union_subset subset_rfl Set.subset_union_right)

theorem Leaves.of_sta (hd : d < 64) (hw : m1.a = w) (h : m.Alters (Set.Ico 124 128) m1) :
    m1.Does [sta (d * 4)] (Leaves d w m) := by
  refine .cons (m1.advance_sta _) (.nil (.of_setWord hd (h.mono Set.subset_union_left) ⟨_, _, _, _, _, rfl⟩ ?_))
  rw [UInt8.toNat_mul_four hd, hw]

theorem load_reads {ext : Ir.Extension} (hd : d < 64) (hregs : ∀ r ∈ base.regs, ∃ n < 64, r = .general n)
    (h : load frame (.general d) width ext base offset = .ok is) (ha : target? m frame base offset = some a)
    (hle : a.toNat + width.bytes ≤ memorySize) (hclear : a.toNat + width.bytes ≤ 124 ∨ 128 ≤ a.toNat) :
    m.Does is (Leaves d (ext.eval width (m.memory.number a.toNat width.bytes)) m) := by
  rw [load, Reg.slot_general hd, ok_bind] at h
  obtain ⟨p, hp, h⟩ := bind_eq_ok.mp h
  rw [← (place_target hregs hp).1] at ha
  cases hop : narrowLoad? width with
  | none =>
    obtain rfl : width = .word := by cases width <;> first | rfl | cases hop
    rw [hop] at h
    obtain ⟨js, hjs, h⟩ := bind_eq_ok.mp h
    cases h
    refine (loadWord_reads hjs ha hle hclear).append ?_
    rintro m1 ⟨hw, halters⟩
    exact Leaves.of_sta hd (hw.trans (ext.eval_word _).symm) halters
  | some narrow =>
    obtain ⟨op, sext⟩ := narrow
    rw [hop] at h
    obtain ⟨⟨setup, ptr, y⟩, hsetup, h⟩ := bind_eq_ok.mp h
    have hzero : m.Does (setup ++ [withConst .ldyImm y, .extDirect op ptr, sta (d * 4)])
        (Leaves d (BitVec.ofNat 32 (m.memory.number a.toNat width.bytes)) m) := by
      refine (pointerTo_reaches hsetup ha).append ?_
      rintro m1 ⟨hptr, halters⟩
      refine .cons rfl (.cons (advance_narrowLoad (m := m1.setY y) hop hptr hle) (Leaves.of_sta hd ?_ ?_))
      · exact congrArg (BitVec.ofNat 32) (halters.number hle hclear)
      · exact ⟨halters.rest.trans ⟨_, _, _, _, _, rfl⟩, halters.bytes⟩
    cases ext with
    | zero =>
      cases h
      exact hzero
    | sign =>
      obtain ⟨n, hn, h⟩ := bind_eq_ok.mp h
      rw [Reg.number_general hd] at hn
      cases hn
      cases h
      refine hzero.append fun m1 hm1 => .cons (advance_extend m1 sext d d) (.nil ?_)
      refine .of_setWord hd hm1.alters ⟨_, _, _, _, _, rfl⟩ ?_
      rw [← eval_narrowLoad hop, ← hm1.value]
      rfl

end Loads

section Stores

def waiting (m : Machine) (width : Width) (onStack : Bool) : Set Nat :=
  if width = .word ∧ onStack = true then Set.Ico m.sp.toNat (m.sp.toNat + 4) else ∅

/-- A word is stored to the address of its place. -/
theorem storeWord_fills (hl : l < 64) (hne : l ≠ 31) (h : storeWord (l * 4) p = .ok is) (ha : p.target? m = some a)
    (hsp : m.sp.toNat + 4 ≤ memorySize) (hle : a.toNat + 4 ≤ memorySize) :
    m.Does is (m.Fills (Set.Ico 124 128 ∪ waiting m .word p.isStack) a.toNat .word (m.memory.word (4 * l.toNat))) := by
  have hpointer (hp : (pointerTo p >>= fun x =>
        pure (x.1 ++ [withConst .ldyImm x.2.2, lda (l * 4), .direct .staIndY x.2.1])) = .ok is) :
      m.Does is (m.Fills (Set.Ico 124 128 ∪ waiting m .word p.isStack) a.toNat .word
        (m.memory.word (4 * l.toNat))) := by
    obtain ⟨⟨setup, ptr, y⟩, hsetup, hp⟩ := bind_eq_ok.mp hp
    cases hp
    refine (pointerTo_reaches hsetup ha).append ?_
    rintro m1 ⟨hptr, halters⟩
    refine .cons rfl (.cons (advance_lda _ _) ?_)
    have hsta (w : Word) : ((m1.setY y).setA w).advance (.direct .staIndY ptr) =
        .ok { (m1.setY y).setA w with memory := m1.memory.setWord a.toNat w } := by
      change (m1.readWord (slotAddr ptr) >>= fun q => ((m1.setY y).setA w).writeWord (q + y) w) = _
      rw [readWord_slot, ok_bind, hptr, writeWord_of_le _ hle]
      rfl
    refine .cons (hsta _) (.nil (.of_putAt (halters.mono Set.subset_union_left) ⟨_, _, _, _, _, rfl⟩ ?_ hle))
    exact congrArg (m1.memory.setWord a.toNat) (halters.slot hl hne)
  cases p with
  | stack offset =>
    cases ha
    refine (storeWord_stack hl h hsp hle).mono fun m' ⟨hm, hrest⟩ => ?_
    generalize hw : m.memory.word (4 * l.toNat) = w at hm ⊢
    have hwait : m.Alters (Set.Ico m.sp.toNat (m.sp.toNat + 4)) { m with memory := m.memory.setWord m.sp.toNat w } :=
      .of_setWord ⟨_, _, _, _, _, rfl⟩ rfl hsp
    obtain ⟨_, _, _, _, _, rfl⟩ := hrest
    refine .of_putAt (hwait.mono ?_) ⟨_, _, _, _, _, rfl⟩ hm hle
    rw [waiting, if_pos ⟨rfl, rfl⟩]
    exact Set.subset_union_right
  | pointer slot offset => exact hpointer h
  | based slot offset => exact hpointer h
  | absolute s =>
    cases h
    refine .cons (m.advance_lda _) ?_
    rw [UInt8.toNat_mul_four hl]
    generalize m.memory.word (4 * l.toNat) = w
    have hsta : (m.setA w).advance (.absolute .staAbs (.symbol s)) =
        .ok { m.setA w with memory := m.memory.setWord a.toNat w } := by
      change (m.operand (.symbol s) >>= fun addr => (m.setA w).writeWord addr w) = _
      rw [operand_of_target ha, ok_bind, writeWord_of_le _ hle]
      rfl
    exact .cons hsta (.nil (.of_putAt (.of_memory_eq (.refl m) rfl) ⟨_, _, _, _, _, rfl⟩ rfl hle))

theorem advance_narrowStore {op : ExtOpcode} (hop : narrowStore? width = some op) {ptr : UInt8}
    (hptr : m.memory.word ptr.toNat + m.y = a) (hle : a.toNat + width.bytes ≤ memorySize) :
    m.advance (.extDirect op ptr) =
      .ok ({ m with memory := m.memory.putAt a.toNat (m.a.bytes.take width.bytes) }.setNZ m.a) := by
  have hlen : (m.a.bytes.take width.bytes).length = width.bytes := by cases width <;> rfl
  have hwrite : m.writeBytes a (m.a.bytes.take width.bytes) =
      .ok { m with memory := m.memory.putAt a.toNat (m.a.bytes.take width.bytes) } := if_pos (by rwa [hlen])
  cases width with
  | byte =>
    cases hop
    change (m.readWord (slotAddr ptr) >>= fun q => m.writeBytes (q + m.y) (m.a.bytes.take Width.byte.bytes) >>= _) = _
    rw [readWord_slot, ok_bind, hptr, hwrite]
    rfl
  | half =>
    cases hop
    change (m.readWord (slotAddr ptr) >>= fun q => m.writeBytes (q + m.y) (m.a.bytes.take Width.half.bytes) >>= _) = _
    rw [readWord_slot, ok_bind, hptr, hwrite]
    rfl
  | word => cases hop

/-- A store writes the low bytes of its register to its address. -/
theorem store_fills (hl : l < 64) (hne : l ≠ 31) (hregs : ∀ r ∈ base.regs, ∃ n < 64, r = .general n)
    (h : store frame (.general l) width base offset = .ok is) (ha : target? m frame base offset = some a)
    (hsp : m.sp.toNat + 4 ≤ memorySize) (hle : a.toNat + width.bytes ≤ memorySize) :
    m.Does is (m.Fills (Set.Ico 124 128 ∪ waiting m width (onStack frame base)) a.toNat width
      (m.regs (.general l))) := by
  rw [store, Reg.slot_general hl, ok_bind] at h
  obtain ⟨p, hp, h⟩ := bind_eq_ok.mp h
  obtain ⟨htarget, hstack⟩ := place_target (m := m) hregs hp
  rw [← htarget] at ha
  rw [← hstack]
  cases hop : narrowStore? width with
  | none =>
    obtain rfl : width = .word := by cases width <;> first | rfl | cases hop
    exact storeWord_fills hl hne h ha hsp hle
  | some op =>
    rw [hop] at h
    obtain ⟨⟨setup, ptr, y⟩, hsetup, h⟩ := bind_eq_ok.mp h
    cases h
    refine (pointerTo_reaches hsetup ha).append ?_
    rintro m1 ⟨hptr, halters⟩
    refine .cons rfl (.cons (advance_lda _ _) ?_)
    have hslot : (m1.setY y).memory.word (l * 4).toNat = m.regs (.general l) := halters.slot hl hne
    rw [hslot]
    refine .cons (advance_narrowStore (m := (m1.setY y).setA _) hop hptr hle) (.nil ?_)
    exact .of_putAt (halters.mono Set.subset_union_left) ⟨_, _, _, _, _, rfl⟩ rfl hle

end Stores

section Steps

/-- Where a base lies. Objects of the frame are counted from the word that its base register holds behind the
prologue. -/
def start? (m : Machine) (frame : Frame) (floor : Word) : MemBase → Option Word
  | .reg r => some (m.regs r)
  | .sp => some m.sp
  | .frame i => do
    let place ← frame.places[i]?
    let offset ← (frame.offset place).toOption
    return floor + BitVec.ofNat 32 offset
  | .symbol s => (m.symbols.lookup s.name).map (· + s.addend)

theorem target_of_start {floor start : Word} (h : place frame base offset = .ok p)
    (hfloor : m.stackRegs.slotBase? frame.base = some floor) (hstart : start? m frame floor base = some start) :
    target? m frame base offset = some (start + offset) := by
  cases base with
  | reg r =>
    cases hstart
    rfl
  | sp =>
    cases hstart
    rfl
  | symbol s =>
    obtain ⟨addr, haddr, rfl⟩ := Option.map_eq_some_iff.mp hstart
    rw [target?, haddr]
    rfl
  | frame i =>
    obtain ⟨r, hr, -⟩ := bind_eq_ok.mp h
    obtain ⟨fplace, n, hplace, hn, hlt⟩ := Frame.offset_of_resolve hr
    rw [start?, hplace, Option.bind_eq_bind, Option.bind_some, hn] at hstart
    cases hstart
    rw [Frame.resolve_of_offset hplace hn hlt] at hr
    split at hr
    · next hfits =>
      rw [target?, Frame.address?, Frame.resolve_of_offset hplace hn hlt, if_pos hfits, BitVec.add_assoc]
      exact congrArg (Option.map (· + (BitVec.ofNat 32 n + offset))) hfloor
    · cases hr

/-- A base and an offset name bytes in memory that are not those of the scratch register. The base register of the frame
is as the prologue left it, and there is a free word at the stack pointer. -/
structure Names (m : Machine) (frame : Frame) (base : MemBase) (offset : Word) (n : Nat) (a : Word) : Prop where
  address : ∃ floor start, m.stackRegs.slotBase? frame.base = some floor ∧ start? m frame floor base = some start ∧
    a = start + offset
  inside : a.toNat + n ≤ memorySize
  clear : a.toNat + n ≤ 124 ∨ 128 ≤ a.toNat
  free : m.sp.toNat + 4 ≤ memorySize

theorem Names.target {n : Nat} (h : Names m frame base offset n a) (hp : place frame base offset = .ok p) :
    target? m frame base offset = some a := by
  obtain ⟨floor, start, hfloor, hstart, rfl⟩ := h.address
  exact target_of_start hp hfloor hstart

/-- A load that is expanded leaves the extended value of the bytes that it names in its register, and a store writes the
low bytes of its register to them. Beside the accumulator, the index registers and the flags only the scratch register
changes, and the free word at the stack pointer if a word is stored at an offset from there. -/
theorem expandInst_accesses (hregs : ∀ r ∈ base.regs, ∃ n < 64, r = .general n) (folding : Bool) (b : Nat)
    (s s' : Stream) :
    (∀ d ext, d < 64 → expandInst frame folding b s (.load (.general d) width ext base offset) = .ok s' →
      ∃ is, s' = s.emitAll is ∧ ∀ m a, Names m frame base offset width.bytes a → m.Holds is →
        ∃ m', m.steps is.length = .ok (m'.placed (m.pc + BitVec.ofNat 32 (encodeAll is).length) m.code) ∧
          m'.gpr d = ext.eval width (m.memory.number a.toNat width.bytes) ∧
          m.Alters (Set.Ico 124 128 ∪ Set.Ico (4 * d.toNat) (4 * d.toNat + 4)) m') ∧
    (∀ l, l < 64 → l ≠ 31 → expandInst frame folding b s (.store (.general l) width base offset) = .ok s' →
      ∃ is, s' = s.emitAll is ∧ ∀ m a, Names m frame base offset width.bytes a → m.Holds is →
        ∃ m', m.steps is.length = .ok (m'.placed (m.pc + BitVec.ofNat 32 (encodeAll is).length) m.code) ∧
          m'.memory.number a.toNat width.bytes = (m.gpr l).toNat % 256 ^ width.bytes ∧
          m.Alters (Set.Ico 124 128 ∪ waiting m width (onStack frame base) ∪
            Set.Ico a.toNat (a.toNat + width.bytes)) m') := by
  refine ⟨fun d ext hd h => ?_, fun l hl hne h => ?_⟩
  · obtain ⟨is, hcode, h⟩ := bind_eq_ok.mp h
    cases h
    change load frame (.general d) width ext base offset = .ok is at hcode
    refine ⟨is, rfl, fun m a hnames hm => ?_⟩
    obtain ⟨_, -, hrest⟩ := bind_eq_ok.mp hcode
    obtain ⟨p, hp, -⟩ := bind_eq_ok.mp hrest
    obtain ⟨m', hsteps, hleaves⟩ := (load_reads hd hregs hcode (hnames.target hp) hnames.inside hnames.clear).steps hm
    exact ⟨m', hsteps, (gpr_eq m' d).trans hleaves.value, hleaves.alters⟩
  · obtain ⟨is, hcode, h⟩ := bind_eq_ok.mp h
    cases h
    change store frame (.general l) width base offset = .ok is at hcode
    refine ⟨is, rfl, fun m a hnames hm => ?_⟩
    obtain ⟨_, -, hrest⟩ := bind_eq_ok.mp hcode
    obtain ⟨p, hp, -⟩ := bind_eq_ok.mp hrest
    obtain ⟨m', hsteps, hfills⟩ :=
      (store_fills hl hne hregs hcode (hnames.target hp) hnames.free hnames.inside).steps hm
    refine ⟨m', hsteps, ?_, hfills.alters⟩
    rw [gpr_eq]
    exact hfills.number

def basedFrame : Frame :=
  { places := [.local 8], callFrameSize := 4, stackSize := 16, frameBase := true, reservedCallFrame := false,
    saved := [] }

def halfLoad : List Instruction :=
  [lda 116, .implied .clc, withConst .adcImm 10#32, sta 124, withConst .ldyImm 0#32, .extDirect .ldW 124, sta 4,
    .extend .sext16 1 1]

def halfMachine : Machine where
  memory := (Memory.setWord (.uniform 0) 116 1000#32).setWord 1008 0xfffe0000#32
  sp := 996#32
  code := placeCode (.uniform none) 0 halfLoad

theorem expandInst_accesses_half :
    expandInst basedFrame true 0 (.empty "" 0 []) (.load (.general 1) .half .sign (.frame 0) (-2#32)) =
      .ok (Stream.emitAll (.empty "" 0 []) halfLoad) ∧
    Names halfMachine basedFrame (.frame 0) (-2#32) 2 1010#32 ∧ halfMachine.Holds halfLoad ∧
    ∃ m', halfMachine.steps 8 = .ok m' ∧ m'.gpr 1 = -2#32 ∧ m'.sp = 996#32 := by
  have hexpand : expandInst basedFrame true 0 (.empty "" 0 []) (.load (.general 1) .half .sign (.frame 0) (-2#32)) =
      .ok (Stream.emitAll (.empty "" 0 []) halfLoad) := rfl
  have hnames : Names halfMachine basedFrame (.frame 0) (-2#32) 2 1010#32 :=
    ⟨⟨1000#32, 1012#32, by decide +kernel, by decide +kernel, by decide⟩, by decide, by decide, by decide⟩
  have hholds : halfMachine.Holds halfLoad := by decide +kernel
  obtain ⟨is, his, hruns⟩ := (expandInst_accesses (by simp [MemBase.regs]) true 0 _ _).1 1 .sign (by decide) hexpand
  obtain rfl : is = halfLoad := by simpa [Stream.emitAll] using (congrArg (·.instructions.toList) his).symm
  obtain ⟨m', hsteps, hgpr, halters⟩ := hruns halfMachine 1010#32 hnames hholds
  have hvalue : Ir.Extension.sign.eval .half (halfMachine.memory.number 1010 2) = -2#32 := by decide +kernel
  exact ⟨hexpand, hnames, hholds, _, hsteps, hgpr.trans hvalue, halters.rest.sp⟩

end Steps

end Expansion

end DirectPage
