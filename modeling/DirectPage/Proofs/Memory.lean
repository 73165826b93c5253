import DirectPage.Simulator.Machine

/-! Words in memory: a write shows in its own four bytes and nowhere else. -/
namespace DirectPage

theorem Word.ofBytes_bytes (w : Word) :
    Word.ofBytes (UInt8.ofNat w.toNat) (UInt8.ofNat (w.toNat / 256)) (UInt8.ofNat (w.toNat / 65536))
      (UInt8.ofNat (w.toNat / 16777216)) = w := by
  have h := w.isLt
  simp only [Word.ofBytes, UInt8.toNat_ofNat', ← BitVec.toNat_inj, BitVec.toNat_ofNat]
  omega

variable {w : Word} {n : Nat}

/-- A word above another one, as numbers. -/
theorem Word.toNat_add_ofNat (h : w.toNat + n < 4294967296) : (w + BitVec.ofNat 32 n).toNat = w.toNat + n := by
  rw [BitVec.toNat_add, BitVec.toNat_ofNat, Nat.add_mod_mod, Nat.mod_eq_of_lt h]

/-- A word below another one, as numbers. -/
theorem Word.toNat_sub_ofNat (h : n ≤ w.toNat) : (w - BitVec.ofNat 32 n).toNat = w.toNat - n := by
  have hn : (BitVec.ofNat 32 n).toNat = n := by
    rw [BitVec.toNat_ofNat, Nat.mod_eq_of_lt (Nat.lt_of_le_of_lt h w.isLt)]
  rw [BitVec.toNat_sub_of_le (BitVec.le_def.mpr (by rwa [hn])), hn]

namespace Memory

def word (mem : Memory) (a : Nat) : Word :=
  Word.ofBytes (mem.get a) (mem.get (a + 1)) (mem.get (a + 2)) (mem.get (a + 3))

def setWord (mem : Memory) (a : Nat) (w : Word) : Memory := mem.putAt a w.bytes

variable {mem : Memory} {a b : Nat}

theorem get_set_self (mem : Memory) (a : Nat) (x : UInt8) : (mem.set a x).get a = x := by
  rw [AddressMap.get_set, if_pos rfl]

theorem get_set_ne (ha : a < memorySize) (hb : b < memorySize) (h : b ≠ a) (x : UInt8) :
    (mem.set a x).get b = mem.get b := by
  rw [AddressMap.get_set, if_neg]
  intro he
  simp only [← BitVec.toNat_inj, BitVec.toNat_ofNat] at he
  simp only [memorySize] at ha hb
  omega

variable {bytes : List UInt8} {mem' : Memory}

/-- Writing bytes changes no byte elsewhere. -/
theorem get_putAt_ne (ha : a + bytes.length ≤ memorySize) (hb : b < memorySize)
    (h : b < a ∨ a + bytes.length ≤ b) : (mem.putAt a bytes).get b = mem.get b := by
  induction bytes generalizing mem a with
  | nil => rfl
  | cons x bytes ih =>
    rw [List.length_cons] at ha h
    rw [Memory.putAt, ih (by omega) (by omega), get_set_ne (by omega) hb (by omega)]

/-- The byte that was written to an address is found there. -/
theorem get_putAt (ha : a + bytes.length ≤ memorySize) {k : Nat} {x : UInt8}
    (hk : bytes[k]? = some x) : (mem.putAt a bytes).get (a + k) = x := by
  induction bytes generalizing mem a k with
  | nil => simp at hk
  | cons y bytes ih =>
    rw [List.length_cons] at ha
    cases k with
    | zero =>
      obtain rfl : y = x := by simpa using hk
      rw [Memory.putAt, get_putAt_ne (by omega) (by omega) (by omega), Nat.add_zero, get_set_self]
    | succ k =>
      have hget : (Memory.putAt (mem.set a y) (a + 1) bytes).get (a + 1 + k) = x :=
        ih (by omega) (by simpa using hk)
      rwa [Nat.add_assoc, Nat.add_comm 1] at hget

/-- Bytes that were written are read back. -/
theorem bytesAt_putAt (ha : a + bytes.length ≤ memorySize) : (mem.putAt a bytes).bytesAt a bytes.length = bytes := by
  induction bytes generalizing mem a with
  | nil => rfl
  | cons x bytes ih =>
    rw [List.length_cons] at ha
    have hrest : (Memory.putAt (mem.set a x) (a + 1) bytes).bytesAt (a + 1) bytes.length = bytes := ih (by omega)
    rw [List.length_cons, putAt, bytesAt, hrest, get_putAt_ne (by omega) (by omega) (by omega), get_set_self]

theorem length_bytesAt (mem : Memory) (a n : Nat) : (mem.bytesAt a n).length = n := by
  induction n generalizing a with
  | zero => rfl
  | succ n ih => rw [bytesAt, List.length_cons, ih]

theorem bytesAt_congr {n : Nat} (h : ∀ b, a ≤ b → b < a + n → mem'.get b = mem.get b) :
    mem'.bytesAt a n = mem.bytesAt a n := by
  induction n generalizing a with
  | zero => rfl
  | succ n ih => rw [bytesAt, bytesAt, h a (by omega) (by omega), ih fun b hb hlt => h b (by omega) (by omega)]

/-- A word that is written changes no byte elsewhere. -/
theorem get_setWord_ne (ha : a + 4 ≤ memorySize) (hb : b < memorySize) (h : b < a ∨ a + 4 ≤ b) (w : Word) :
    (mem.setWord a w).get b = mem.get b :=
  get_putAt_ne (by simpa [Word.bytes] using ha) hb (by simpa [Word.bytes] using h)

theorem word_congr (h : ∀ b, a ≤ b → b < a + 4 → mem'.get b = mem.get b) : mem'.word a = mem.word a := by
  rw [word, word, h a (by omega) (by omega), h (a + 1) (by omega) (by omega), h (a + 2) (by omega) (by omega),
    h (a + 3) (by omega) (by omega)]

theorem word_setWord_self (ha : a + 4 ≤ memorySize) (w : Word) : (mem.setWord a w).word a = w := by
  have hget {k : Nat} {x : UInt8} (hk : w.bytes[k]? = some x) : (mem.setWord a w).get (a + k) = x :=
    get_putAt (by simpa [Word.bytes] using ha) hk
  have h0 := hget (k := 0) rfl
  rw [Nat.add_zero] at h0
  rw [word, h0, hget (k := 1) rfl, hget (k := 2) rfl, hget (k := 3) rfl, Word.ofBytes_bytes]

theorem word_setWord_ne (ha : a + 4 ≤ memorySize) (hb : b + 4 ≤ memorySize) (h : b + 4 ≤ a ∨ a + 4 ≤ b)
    (w : Word) : (mem.setWord a w).word b = mem.word b :=
  word_congr fun c hc hlt => get_setWord_ne ha (by omega) (by omega) w

end Memory

namespace Machine

variable {a : Word}

theorem readWord_of_le (m : Machine) (h : a.toNat + 4 ≤ memorySize) : m.readWord a = .ok (m.memory.word a.toNat) := by
  rw [readWord, readBytes, if_pos h]
  rfl

theorem writeWord_of_le (m : Machine) (h : a.toNat + 4 ≤ memorySize) (w : Word) :
    m.writeWord a w = .ok { m with memory := m.memory.setWord a.toNat w } := by
  rw [writeWord, writeBytes, if_pos (by simpa [Word.bytes] using h)]
  rfl

@[simp] theorem slotAddr_toNat (slot : UInt8) : (slotAddr slot).toNat = slot.toNat := by
  have := slot.toNat_lt
  simp only [slotAddr, BitVec.toNat_ofNat]
  omega

@[simp] theorem gprAddr_toNat (n : UInt8) : (gprAddr n).toNat = 4 * n.toNat := by
  have := n.toNat_lt
  simp only [gprAddr, BitVec.toNat_ofNat]
  omega

theorem readWord_slot (m : Machine) (slot : UInt8) :
    m.readWord (slotAddr slot) = .ok (m.memory.word slot.toNat) := by
  have := slot.toNat_lt
  rw [m.readWord_of_le (by rw [slotAddr_toNat, memorySize]; omega), slotAddr_toNat]

theorem writeWord_slot (m : Machine) (slot : UInt8) (w : Word) :
    m.writeWord (slotAddr slot) w = .ok { m with memory := m.memory.setWord slot.toNat w } := by
  have := slot.toNat_lt
  rw [m.writeWord_of_le (by rw [slotAddr_toNat, memorySize]; omega), slotAddr_toNat]

theorem gpr_eq (m : Machine) (n : UInt8) : m.gpr n = m.memory.word (4 * n.toNat) := by
  have := n.toNat_lt
  rw [gpr, m.readWord_of_le (by rw [gprAddr_toNat, memorySize]; omega), gprAddr_toNat]
  rfl

theorem setGpr_eq (m : Machine) (n : UInt8) (w : Word) :
    m.setGpr n w = { m with memory := m.memory.setWord (4 * n.toNat) w } := by
  have := n.toNat_lt
  rw [setGpr, m.writeWord_of_le (by rw [gprAddr_toNat, memorySize]; omega), gprAddr_toNat]
  rfl

end Machine

end DirectPage
