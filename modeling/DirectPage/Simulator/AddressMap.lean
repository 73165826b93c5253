/-! Total maps from addresses, as binary trees over the bits of the address. -/
namespace DirectPage

/-- A map from addresses of `bits` bits: one value for all of them, or a map each for those
whose highest bit is clear and set. -/
inductive AddressMap (α : Type) : Nat → Type
  | uniform {bits : Nat} (a : α) : AddressMap α bits
  | split {bits : Nat} (low high : AddressMap α bits) : AddressMap α (bits + 1)

namespace AddressMap

variable {α : Type}

def get : {bits : Nat} → AddressMap α bits → Nat → α
  | _, uniform a, _ => a
  | bits + 1, split low high, k => if k.testBit bits then high.get k else low.get k

def set : {bits : Nat} → AddressMap α bits → Nat → α → AddressMap α bits
  | 0, _, _, a => uniform a
  | bits + 1, uniform b, k, a =>
    if k.testBit bits then split (uniform b) (set (uniform b) k a)
    else split (set (uniform b) k a) (uniform b)
  | bits + 1, split low high, k, a =>
    if k.testBit bits then split low (high.set k a) else split (low.set k a) high

/-- Two addresses agree if they do in their highest bit and in the rest. -/
theorem ofNat_succ_inj (bits j k : Nat) :
    BitVec.ofNat (bits + 1) j = BitVec.ofNat (bits + 1) k ↔
      j.testBit bits = k.testBit bits ∧ BitVec.ofNat bits j = BitVec.ofNat bits k := by
  simp only [← BitVec.toNat_inj, BitVec.toNat_ofNat]
  rw [Nat.mod_pow_succ, Nat.mod_pow_succ, ← Nat.toNat_testBit, ← Nat.toNat_testBit]
  have hj := Nat.mod_lt j (Nat.two_pow_pos bits)
  have hk := Nat.mod_lt k (Nat.two_pow_pos bits)
  cases j.testBit bits <;> cases k.testBit bits <;> simp <;> omega

/-- A change shows at its own address and at no other. -/
theorem get_set {bits : Nat} (m : AddressMap α bits) (j k : Nat) (a : α) :
    (m.set k a).get j = if BitVec.ofNat bits j = BitVec.ofNat bits k then a else m.get j := by
  induction bits with
  | zero => simp [set, get, BitVec.of_length_zero]
  | succ bits ih =>
    simp only [ofNat_succ_inj]
    cases m with
    | uniform b =>
      cases hj : j.testBit bits <;> cases hk : k.testBit bits <;> simp [set, get, hj, hk, ih]
    | split low high =>
      cases hj : j.testBit bits <;> cases hk : k.testBit bits <;> simp [set, get, hj, hk, ih]

end AddressMap

end DirectPage
