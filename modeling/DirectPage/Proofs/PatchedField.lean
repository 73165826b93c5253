import Mathlib.Data.Nat.Digits.Lemmas
import DirectPage.Relocation
import DirectPage.Proofs.Checked

/-! Patching of fields in place. A section is changed byte by byte once both checks have passed, so a patch that is
refused leaves it as it was; and what a patched field holds leads back to the symbol. -/
namespace DirectPage

abbrev Patching := EStateM Failure (List UInt8) Unit

def writeField : Nat → List UInt8 → Patching
  | _, [] => pure ()
  | k, b :: field => do
    modify fun bytes => bytes.set k b
    writeField (k + 1) field

namespace FixupKind

def patch (kind : FixupKind) (offset : Nat) (value : Int) : Patching := do
  if kind.inRange value then
    if offset + kind.width ≤ (← get).length then writeField offset (lowBytes kind.width value)
    else
      match unsigned64 (offset + kind.width) with
      | .ok _ => throw (.error (.internal (.pastSectionEnd kind offset)))
      | .error e => throw e
  else throw (.error (.fixupOutOfRange kind value offset))

/-- Values that a field can hold: signed ones, and where it is absolute unsigned ones as well. -/
def Admits (kind : FixupKind) (value : Int) : Prop :=
  -2 ^ (8 * kind.width - 1) ≤ value ∧
    value < 2 ^ (if kind.isPcRelative then 8 * kind.width - 1 else 8 * kind.width)

theorem inRange_iff (kind : FixupKind) (value : Int) : kind.inRange value = true ↔ kind.Admits value := by
  cases kind <;> simp [inRange, Admits, width, isPcRelative]

/-- A field is written exactly where it fits and admits the value. -/
theorem apply_eq_ok {kind : FixupKind} {bytes after : List UInt8} {offset : Nat} {value : Int} :
    kind.apply bytes offset value = .ok after ↔ (offset + kind.width ≤ bytes.length ∧ kind.Admits value) ∧
      after = patchBytes bytes offset (lowBytes kind.width value) := by
  rw [apply, ← inRange_iff]
  by_cases hrange : kind.inRange value = true
  · by_cases hfits : offset + kind.width ≤ bytes.length
    · simp [hrange, hfits, eq_comm]
    · rw [if_pos hrange, if_neg hfits]
      simp only [hfits, false_and, iff_false]
      intro h
      obtain ⟨-, -, h⟩ := bind_eq_ok.mp h
      cases h
  · simp [hrange, fail]

/-- A patch that is not made says why. -/
theorem apply_eq_error {kind : FixupKind} {bytes : List UInt8} {offset : Nat} {value : Int} {e : Failure}
    (hsize : offset + kind.width < 2 ^ 64) (h : kind.apply bytes offset value = .error e) :
    e = .error (if kind.inRange value then .internal (.pastSectionEnd kind offset)
      else .fixupOutOfRange kind value offset) := by
  rw [apply] at h
  split at h
  · next hrange =>
    rw [if_pos hrange]
    split at h
    · cases h
    · rw [show unsigned64 _ = _ from if_pos hsize] at h
      cases h
      rfl
  · next hrange =>
    rw [if_neg hrange]
    cases h
    rfl

theorem Admits.lower {kind : FixupKind} {value : Int} (h : kind.Admits value) : -2 ^ 31 ≤ value := by
  have hlow := h.1
  cases kind <;> simp only [width, Nat.reduceMul, Nat.reduceSub, Int.reducePow, Int.reduceNeg] at hlow ⊢ <;> omega

/-- What a relative field holds is a signed number. -/
theorem Admits.signed {kind : FixupKind} {value : Int} (h : kind.Admits value) (hrel : kind.isPcRelative = true) :
    (value % 2 ^ (8 * kind.width)).bmod (2 ^ (8 * kind.width)) = value := by
  cases kind with
  | pcRel8 | pcRel16 =>
    simp only [Admits, width, isPcRelative, if_true, Nat.reduceMul, Nat.reduceSub, Nat.reducePow, Int.reducePow,
      Int.reduceNeg] at h ⊢
    rw [Int.bmod_def]
    omega
  | _ => cases hrel

end FixupKind

def Relocation.patch (r : Relocation) (base s : Word) : Patching := do
  match r.rtype.kind? with
  | none => pure ()
  | some kind =>
    match r.value kind (← get) base s with
    | .ok value => kind.patch r.offset value
    | .error e => throw e

def Fixup.patch (f : Fixup) (base s : Word) : Patching :=
  match f.toRelocation with
  | .ok r => r.patch base s
  | .error e => throw e

/-- The outcome of a change in place that, if it is refused, has not begun. -/
def inPlace {σ : Type} (before : σ) : Checked σ → EStateM.Result Failure σ Unit
  | .ok after => .ok () after
  | .error e => .error e before

section Writing

variable {bytes field : List UInt8} {k n : Nat}

theorem length_lowBytes (n : Nat) (value : Int) : (lowBytes n value).length = n := by
  induction n generalizing value with
  | zero => rfl
  | succ n ih => rw [lowBytes, List.length_cons, ih]

/-- Low bytes are the digits of an integer. -/
theorem ofDigits_lowBytes (n : Nat) (value : Int) :
    ((Nat.ofDigits 256 ((lowBytes n value).map UInt8.toNat) : Nat) : Int) = value % 256 ^ n := by
  induction n generalizing value with
  | zero => simp [lowBytes]
  | succ n ih =>
    have hbyte : ((UInt8.ofNat (value % 256).toNat).toNat : Int) = value % 256 := by
      rw [UInt8.toNat_ofNat']
      omega
    rw [lowBytes, List.map_cons, Nat.ofDigits_cons, Nat.cast_add, Nat.cast_mul, ih, hbyte, Int.emod_def, Int.emod_def,
      Int.ediv_ediv_of_nonneg (by decide), ← pow_succ', Int.emod_def, pow_succ']
    push_cast
    ring

variable (h : k + field.length ≤ bytes.length)

include h

theorem length_patchBytes : (patchBytes bytes k field).length = bytes.length := by
  simp only [patchBytes, List.length_append, List.length_take, List.length_drop]
  omega

/-- The field holds what is written to it. -/
theorem field_patchBytes : ((patchBytes bytes k field).drop k).take field.length = field := by
  have hfront : (bytes.take k).length = k := by rw [List.length_take]; omega
  rw [patchBytes, List.append_assoc, List.drop_left' hfront, List.take_left' rfl]

/-- All bytes outside the field stay. -/
theorem getElem?_patchBytes {j : Nat} (hj : j < k ∨ k + field.length ≤ j) :
    (patchBytes bytes k field)[j]? = bytes[j]? := by
  have hfront : (bytes.take k).length = k := by rw [List.length_take]; omega
  rw [patchBytes, List.append_assoc]
  rcases hj with hj | hj
  · rw [List.getElem?_append_left (by omega), List.getElem?_take_of_lt hj]
  · rw [List.getElem?_append_right (by omega), List.getElem?_append_right (by omega), List.getElem?_drop]
    congr 1
    omega

/-- Bytes that are written one behind the other take the place of those that were there. -/
theorem writeField_eq : writeField k field bytes = .ok () (patchBytes bytes k field) := by
  induction field generalizing k bytes with
  | nil => simp [writeField, patchBytes, pure, EStateM.pure]
  | cons b field ih =>
    rw [List.length_cons] at h
    change writeField (k + 1) field (bytes.set k b) = _
    rw [ih (by rw [List.length_set]; omega)]
    refine congrArg _ ?_
    have htake : (bytes.set k b).take (k + 1) = bytes.take k ++ [b] := by
      rw [List.take_set, List.take_add_one, List.getElem?_eq_getElem (by omega), Option.toList_some,
        List.set_append_right _ _ (by rw [List.length_take]; omega), List.length_take]
      simp [Nat.min_eq_left (show k ≤ bytes.length by omega)]
    have hdrop : (bytes.set k b).drop (k + 1 + field.length) = bytes.drop (k + (field.length + 1)) := by
      rw [List.drop_set_of_lt (by omega)]
      congr 1
      omega
    rw [patchBytes, patchBytes, htake, hdrop, List.append_assoc, List.append_assoc, List.append_assoc]
    rfl

end Writing

theorem FixupKind.patch_eq (kind : FixupKind) (bytes : List UInt8) (offset : Nat) (value : Int) :
    kind.patch offset value bytes = inPlace bytes (kind.apply bytes offset value) := by
  rw [FixupKind.patch, FixupKind.apply]
  by_cases hrange : kind.inRange value = true
  · rw [if_pos hrange, if_pos hrange]
    change (if offset + kind.width ≤ bytes.length then writeField offset (lowBytes kind.width value) else _) bytes = _
    by_cases hfits : offset + kind.width ≤ bytes.length
    · rw [if_pos hfits, if_pos hfits]
      exact writeField_eq (by rwa [length_lowBytes])
    · rw [if_neg hfits, if_neg hfits]
      cases unsigned64 (offset + kind.width) <;> rfl
  · rw [if_neg hrange, if_neg hrange]
    rfl

/-- Patching in place comes to what patching of a copy comes to. -/
theorem Relocation.patch_eq (r : Relocation) (bytes : List UInt8) (base s : Word) :
    r.patch base s bytes = inPlace bytes (r.apply bytes base s) := by
  rw [Relocation.patch, Relocation.apply]
  cases r.rtype.kind? with
  | none => rfl
  | some kind =>
    change (match r.value kind bytes base s with
      | .ok value => kind.patch r.offset value
      | .error e => throw e) bytes = inPlace bytes (r.value kind bytes base s >>= kind.apply bytes r.offset)
    cases r.value kind bytes base s with
    | ok value => exact kind.patch_eq bytes _ _
    | error e => rfl

theorem Fixup.patch_eq (f : Fixup) (bytes : List UInt8) (base s : Word) :
    f.patch base s bytes = inPlace bytes (do (← f.toRelocation).apply bytes base s) := by
  rw [Fixup.patch]
  cases f.toRelocation with
  | ok r => exact r.patch_eq bytes base s
  | error e => rfl

namespace Fixup

variable {f : Fixup} {base s : Word} {bytes after : List UInt8}

def field (f : Fixup) (bytes : List UInt8) : Nat :=
  Nat.ofDigits 256 (((bytes.drop f.offset).take f.kind.width).map UInt8.toNat)

def destination (f : Fixup) (s : Word) : Int := s.toNat + f.target.addend.toInt

/-- What the field is to hold: the address, or the way to it from the end of the instruction. -/
def value (f : Fixup) (base s : Word) : Int :=
  if f.kind.isPcRelative then f.destination s - (base.toNat + f.instrEnd) else f.destination s

/-- A section in which the field leads to the destination, and all else is as before. -/
structure Reproduces (f : Fixup) (base s : Word) (bytes after : List UInt8) : Prop where
  relative : f.kind.isPcRelative = true →
    base.toNat + f.instrEnd + (f.field after : Int).bmod (2 ^ (8 * f.kind.width)) = f.destination s
  absolute : f.kind.isPcRelative = false → (f.field after : Int) = f.destination s % 2 ^ (8 * f.kind.width)
  length : after.length = bytes.length
  outside : ∀ k, k < f.offset ∨ f.offset + f.kind.width ≤ k → after[k]? = bytes[k]?

/-- Where the instruction ends, counted from the field, as a signed number. -/
def distance (f : Fixup) : Int := (BitVec.ofNat 64 (f.instrEnd - f.offset)).toInt

/-- The addend that leads from the field, and what it takes to get there, are signed numbers of 64 bits. -/
def AddendFits (f : Fixup) : Prop := f.kind.isPcRelative = true →
  -2 ^ 63 < f.distance ∧ -2 ^ 63 ≤ f.target.addend.toInt - f.distance ∧ f.target.addend.toInt - f.distance < 2 ^ 63

instance (f : Fixup) : Decidable f.AddendFits := inferInstanceAs (Decidable (_ → _))

/-- The addend of a relocation leads from the field, where that of the fixup leads from the end of the
instruction. -/
theorem toRelocation_eq (f : Fixup) (hend : f.offset ≤ f.instrEnd) : f.toRelocation =
    if f.AddendFits then .ok ⟨f.offset, f.kind.relocType, f.target.name,
      f.target.addend.toInt - if f.kind.isPcRelative then f.distance else 0⟩ else abort := by
  have hlow := BitVec.le_toInt f.target.addend
  have hhigh := BitVec.toInt_lt (x := f.target.addend)
  have htop := BitVec.toInt_lt (x := BitVec.ofNat 64 (f.instrEnd - f.offset))
  rw [← distance] at htop
  rw [toRelocation, if_neg (Nat.not_lt.mpr hend), FixupKind.bias, Nat.sub_zero, ← distance]
  cases hrel : f.kind.isPcRelative with
  | true =>
    rw [if_pos rfl, if_pos (Nat.zero_le _), if_pos rfl]
    by_cases h : f.AddendFits
    · have hfits := h hrel
      rw [if_pos h, signed64, if_pos (by omega)]
      change (do return Relocation.mk _ _ _ (← signed64 _) : Checked Relocation) = _
      rw [signed64, if_pos (by omega)]
      rfl
    · have hnot : ¬(-2 ^ 63 < f.distance ∧ -2 ^ 63 ≤ f.target.addend.toInt - f.distance ∧
          f.target.addend.toInt - f.distance < 2 ^ 63) := fun hfits => h fun _ => hfits
      rw [if_neg h, signed64]
      split
      · change (do return Relocation.mk _ _ _ (← signed64 _) : Checked Relocation) = _
        rw [signed64, if_neg (by omega)]
        rfl
      · rfl
  | false =>
    have h : f.AddendFits := fun hrel' => by cases hrel.symm.trans hrel'
    rw [if_pos h]
    change (do return Relocation.mk _ _ _ (← signed64 _) : Checked Relocation) = _
    rw [signed64, if_pos (by omega)]
    simp

/-- The record keeps the addend of the reference, less what is left of the instruction. -/
theorem toRelocation_cases (hend : f.offset ≤ f.instrEnd) (hfar : f.kind.isPcRelative = true → f.instrEnd < 2 ^ 63) :
    (∃ a : Int, f.toRelocation = .ok ⟨f.offset, f.kind.relocType, f.target.name, a⟩ ∧ -2 ^ 63 ≤ a ∧
      a = f.target.addend.toInt - if f.kind.isPcRelative then (f.instrEnd : Int) - f.offset else 0) ∨
    f.toRelocation = abort ∧ f.kind.isPcRelative = true ∧ 2 ^ 62 ≤ f.instrEnd := by
  have hlow := BitVec.le_toInt f.target.addend
  have hhigh := BitVec.toInt_lt (x := f.target.addend)
  have hdistance (hrel : f.kind.isPcRelative = true) : f.distance = f.instrEnd - f.offset := by
    have := hfar hrel
    simp only [distance, BitVec.toInt, BitVec.toNat_ofNat]
    omega
  rw [f.toRelocation_eq hend]
  split
  · next h =>
    refine .inl ⟨_, rfl, ?_, ?_⟩
    · split
      · next hrel => exact (h hrel).2.1
      · omega
    · split
      · next hrel => rw [hdistance hrel]
      · rfl
  · next h =>
    have hrel : f.kind.isPcRelative = true := by
      by_contra hrel
      exact h fun hrel' => absurd hrel' hrel
    refine .inr ⟨rfl, hrel, ?_⟩
    by_contra hsmall
    have hd := hdistance hrel
    exact h fun _ => by omega

/-- The address of a field is out of reach only if the field is outside of its section. -/
theorem fieldAddress_cases (bytes : List UInt8) (base : Word) (offset : Nat) :
    (∃ p, fieldAddress bytes base offset = .ok p ∧ (offset < 2 ^ 63 → p = base.toNat + offset)) ∨
      fieldAddress bytes base offset = abort ∧ bytes.length < offset ∧ 2 ^ 62 ≤ offset := by
  rw [fieldAddress]
  split
  · exact .inl ⟨_, rfl, fun _ => rfl⟩
  · have hoffset : offset < 2 ^ 63 → (BitVec.ofNat 64 offset).toInt = offset := fun h => by
      simp only [BitVec.toInt, BitVec.toNat_ofNat]
      omega
    rw [signed64]
    split
    · exact .inl ⟨_, rfl, fun h => by rw [hoffset h]⟩
    · have hlow := BitVec.le_toInt (BitVec.ofNat 64 offset)
      exact .inr ⟨rfl, by omega, by omega⟩

/-- Resolving a fixup comes to storing its value. A sum on the way that overflows is out of the range of every field,
or the field is not there. -/
theorem toRelocation_apply (hend : f.offset ≤ f.instrEnd) (hfar : f.kind.isPcRelative = true → f.instrEnd < 2 ^ 63)
    (bytes : List UInt8) (base s : Word) :
    (do (← f.toRelocation).apply bytes base s) = f.kind.apply bytes f.offset (f.value base s) ∨
      (do (← f.toRelocation).apply bytes base s) = abort ∧ 2 ^ 62 ≤ f.instrEnd ∧
        ¬(f.offset + f.kind.width ≤ bytes.length ∧ f.kind.Admits (f.value base s)) := by
  have hkind : f.kind.relocType.kind? = some f.kind := by cases f.kind <;> rfl
  have hleast := BitVec.le_toInt f.target.addend
  have hhigh := BitVec.toInt_lt (x := f.target.addend)
  -- a way that is this long backwards fits in no field
  have hrange (hrel : f.kind.isPcRelative = true) (hbig : 2 ^ 62 ≤ f.instrEnd) : ¬f.kind.Admits (f.value base s) := by
    intro hadmits
    have := hadmits.lower
    rw [value, if_pos hrel, destination] at this
    omega
  rcases toRelocation_cases hend hfar with ⟨a, hr, hlow, ha⟩ | ⟨hr, hrel, hbig⟩
  · rw [hr]
    change Relocation.apply _ bytes base s = _ ∨ Relocation.apply _ bytes base s = _ ∧ _
    simp only [Relocation.apply, hkind, Relocation.value]
    rcases fieldAddress_cases bytes base f.offset with ⟨p, hp, hplace⟩ | ⟨hp, hout, hbig⟩
    · have hsum : signed64 (s.toNat + a) = .ok (s.toNat + a) := if_pos (by split at ha <;> omega)
      rw [hp, ok_bind, hsum, ok_bind, value, destination]
      cases hrel : f.kind.isPcRelative with
      | true =>
        rw [hrel, if_pos rfl] at ha
        rw [hplace (by have := hfar hrel; omega), if_pos rfl, if_pos rfl, signed64]
        split
        · refine .inl (congrArg (f.kind.apply bytes f.offset) ?_)
          omega
        · refine .inr ⟨rfl, by omega, fun h => ?_⟩
          have := hrange hrel (by omega)
          rw [value, if_pos hrel, destination] at this
          exact this h.2
      | false =>
        rw [hrel] at ha
        refine .inl (congrArg (f.kind.apply bytes f.offset) ?_)
        simp [ha]
    · rw [hp]
      exact .inr ⟨rfl, by omega, fun h => by omega⟩
  · rw [hr]
    exact .inr ⟨rfl, hbig, fun h => hrange hrel hbig h.2⟩

theorem apply_reproduces (h : f.kind.apply bytes f.offset (f.value base s) = .ok after) :
    f.Reproduces base s bytes after := by
  obtain ⟨⟨hfits, hadmits⟩, rfl⟩ := FixupKind.apply_eq_ok.mp h
  have hlen := length_lowBytes f.kind.width (f.value base s)
  have hroom : f.offset + (lowBytes f.kind.width (f.value base s)).length ≤ bytes.length := hlen.symm ▸ hfits
  have hfield : (f.field (patchBytes bytes f.offset (lowBytes f.kind.width (f.value base s))) : Int) =
      f.value base s % 2 ^ (8 * f.kind.width) := by
    have htake := field_patchBytes hroom
    rw [hlen] at htake
    rw [field, htake, ofDigits_lowBytes, pow_mul]
    rfl
  constructor
  case relative =>
    intro hrel
    rw [hfield, hadmits.signed hrel, value, if_pos hrel]
    omega
  case absolute =>
    intro hrel
    rw [hfield, value, if_neg (by simp [hrel])]
  case length => exact length_patchBytes hroom
  case outside =>
    intro k hk
    exact getElem?_patchBytes hroom (hlen.symm ▸ hk)

end Fixup

/-- What becomes of a section when a fixup in it is resolved in place, by way of its relocation. The patch is made
exactly if the field is there and has room for the value; the field then leads to the destination, and nothing else has
changed. A patch that is not made changes nothing, and as long as no sum is near its limit it is refused with an error
that says which of the two is missing. -/
theorem Fixup.patch_reproduces {f : Fixup} (hend : f.offset ≤ f.instrEnd)
    (hfar : f.kind.isPcRelative = true → f.instrEnd < 2 ^ 63) (bytes : List UInt8) (base s : Word) :
    f.patch base s bytes = inPlace bytes (do (← f.toRelocation).apply bytes base s) ∧
      ((∃ after, f.patch base s bytes = .ok () after) ↔
        f.offset + f.kind.width ≤ bytes.length ∧ f.kind.Admits (f.value base s)) ∧
      (∀ after, f.patch base s bytes = .ok () after → f.Reproduces base s bytes after) ∧
      ∀ e after, f.patch base s bytes = .error e after → after = bytes ∧
        (f.instrEnd < 2 ^ 62 → e = .error (if f.kind.inRange (f.value base s) then
          .internal (.pastSectionEnd f.kind f.offset) else .fixupOutOfRange f.kind (f.value base s) f.offset)) := by
  refine ⟨f.patch_eq bytes base s, ?_⟩
  rw [f.patch_eq]
  rcases f.toRelocation_apply hend hfar bytes base s with happly | ⟨habort, hbig, hnot⟩
  · rw [happly]
    cases hpatch : f.kind.apply bytes f.offset (f.value base s) with
    | ok after =>
      refine ⟨⟨fun _ => (FixupKind.apply_eq_ok.mp hpatch).1, fun _ => ⟨after, rfl⟩⟩, fun after' hafter => ?_, nofun⟩
      cases hafter
      exact Fixup.apply_reproduces hpatch
    | error e =>
      refine ⟨⟨nofun, fun hfits => ?_⟩, nofun, fun e' after hafter => ?_⟩
      · have hok := FixupKind.apply_eq_ok.mpr ⟨hfits, rfl⟩
        rw [hpatch] at hok
        cases hok
      · cases hafter
        have hwidth : f.kind.width ≤ 4 := by cases f.kind <;> decide
        exact ⟨rfl, fun hsmall => FixupKind.apply_eq_error (by omega) hpatch⟩
  · rw [habort]
    refine ⟨⟨nofun, fun hfits => absurd hfits hnot⟩, nofun, fun e after hafter => ?_⟩
    cases hafter
    exact ⟨rfl, fun hsmall => by omega⟩

def backBranch : Fixup := ⟨1, .pcRel16, ⟨"loop", 0#32⟩, 3⟩

theorem Fixup.patch_reproduces_backBranch : backBranch.offset ≤ backBranch.instrEnd ∧
    backBranch.instrEnd < 2 ^ 63 ∧
    backBranch.toRelocation = .ok ⟨1, .pcRel16, "loop", -2⟩ ∧
    backBranch.patch 4096#32 4080#32 [130, 0, 0, 96] = .ok () [130, 237, 255, 96] ∧
    backBranch.Reproduces 4096#32 4080#32 [130, 0, 0, 96] [130, 237, 255, 96] := by
  have hend : backBranch.offset ≤ backBranch.instrEnd := by decide
  have hfar : backBranch.instrEnd < 2 ^ 63 := by decide
  have hpatch : backBranch.patch 4096#32 4080#32 [130, 0, 0, 96] = .ok () [130, 237, 255, 96] := rfl
  obtain ⟨-, -, hreproduces, -⟩ := patch_reproduces hend (fun _ => hfar) [130, 0, 0, 96] 4096#32 4080#32
  exact ⟨hend, hfar, rfl, hpatch, hreproduces _ hpatch⟩

end DirectPage
