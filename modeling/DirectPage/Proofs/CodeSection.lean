import DirectPage.Proofs.Layout

/-! Sections of functions. Each part starts on a word boundary behind the one before it, and only
no-operations lie between them. -/
namespace DirectPage.Object

open DirectPage.Stream (alignUp_four)

def sectionFrom (bytes : List UInt8) (parts : List (List UInt8)) : List UInt8 :=
  parts.foldl (fun acc part => acc ++ padding acc.length ++ part) bytes

def symbolsFrom : Nat → List (String × Nat) → List Symbol
  | _, [] => []
  | stop, (name, size) :: rest => ⟨name, alignUp stop 4, size⟩ :: symbolsFrom (alignUp stop 4 + size) rest

theorem symbolsFrom_named (stop : Nat) (sizes : List (String × Nat)) :
    (symbolsFrom stop sizes).map (fun sym => (sym.name, sym.size)) = sizes := by
  induction sizes generalizing stop with
  | nil => rfl
  | cons p sizes ih =>
    rw [symbolsFrom, List.map_cons, ih]

theorem length_padding (n : Nat) : n + (padding n).length = alignUp n 4 := by
  have := (alignUp_four n).1
  rw [padding, List.length_replicate]
  omega

structure Holds (start : Nat) (symbols : List Symbol) (parts : List (List UInt8)) (image : List UInt8) : Prop where
  length : symbols.length = parts.length
  part : ∀ (i : Nat) sym part, symbols[i]? = some sym → parts[i]? = some part →
    4 ∣ sym.offset ∧ sym.size = part.length ∧ (image.drop sym.offset).take sym.size = part
  /-- Between them there are no-operations only. -/
  gap : ∀ k, start ≤ k → k < image.length → (∀ sym ∈ symbols, k < sym.offset ∨ sym.offset + sym.size ≤ k) →
    image[k]? = some Opcode.nop.byte
  /-- Each follows the one before it as closely as word boundaries allow. -/
  first : ∀ sym, symbols[0]? = some sym → sym.offset = alignUp start 4
  next : ∀ (i : Nat) sym sym', symbols[i]? = some sym → symbols[i + 1]? = some sym' →
    sym'.offset = alignUp (sym.offset + sym.size) 4

theorem sectionFrom_cons (bytes part : List UInt8) (parts : List (List UInt8)) :
    sectionFrom bytes (part :: parts) = sectionFrom (bytes ++ padding bytes.length ++ part) parts := rfl

/-- What is there stays in front. -/
theorem sectionFrom_extends (bytes : List UInt8) (parts : List (List UInt8)) :
    ∃ more, sectionFrom bytes parts = bytes ++ more := by
  induction parts generalizing bytes with
  | nil => exact ⟨[], (List.append_nil bytes).symm⟩
  | cons part parts ih =>
    obtain ⟨more, hmore⟩ := ih (bytes ++ padding bytes.length ++ part)
    exact ⟨padding bytes.length ++ (part ++ more), by rw [sectionFrom_cons, hmore]; simp⟩

theorem length_step (bytes part : List UInt8) :
    (bytes ++ padding bytes.length ++ part).length = alignUp bytes.length 4 + part.length := by
  rw [List.length_append, List.length_append, length_padding]

theorem length_sectionFrom {bytes bytes' : List UInt8} {parts parts' : List (List UInt8)}
    (hbytes : bytes.length = bytes'.length) (hparts : parts.map List.length = parts'.map List.length) :
    (sectionFrom bytes parts).length = (sectionFrom bytes' parts').length := by
  induction parts generalizing bytes bytes' parts' with
  | nil =>
    cases parts' with
    | nil => exact hbytes
    | cons => cases hparts
  | cons part parts ih =>
    cases parts' with
    | nil => cases hparts
    | cons part' parts' =>
      obtain ⟨hpart, hrest⟩ := List.cons.inj hparts
      rw [sectionFrom_cons, sectionFrom_cons]
      refine ih ?_ hrest
      rw [length_step, length_step, hbytes, hpart]

/-- One more part in front. -/
private theorem Holds.cons {bytes part : List UInt8} {name : String} {symbols : List Symbol} {parts : List (List UInt8)}
    (h : Holds (alignUp bytes.length 4 + part.length) symbols parts
      (sectionFrom (bytes ++ padding bytes.length ++ part) parts)) :
    Holds bytes.length (⟨name, alignUp bytes.length 4, part.length⟩ :: symbols) (part :: parts)
      (sectionFrom bytes (part :: parts)) := by
  obtain ⟨more, hmore⟩ := sectionFrom_extends (bytes ++ padding bytes.length ++ part) parts
  have hfront : (bytes ++ padding bytes.length).length = alignUp bytes.length 4 := by
    rw [List.length_append, length_padding]
  rw [sectionFrom_cons]
  constructor
  case length => rw [List.length_cons, List.length_cons, h.length]
  case part =>
    intro i sym p hsym hp
    cases i with
    | zero =>
      cases hsym
      cases hp
      refine ⟨(alignUp_four _).2.2, rfl, ?_⟩
      rw [hmore, List.append_assoc, List.drop_left' hfront, List.take_left' rfl]
    | succ i => exact h.part i sym p hsym hp
  case gap =>
    intro k hlow hhigh hout
    rcases hout _ List.mem_cons_self with hk | hk
    · -- the bytes up to the word boundary
      have hpad : bytes ++ padding bytes.length ++ part ++ more =
          bytes ++ (padding bytes.length ++ (part ++ more)) := by
        simp only [List.append_assoc]
      have hlen := length_padding bytes.length
      rw [hmore, hpad, List.getElem?_append_right hlow, List.getElem?_append_left (by dsimp only at hk; omega), padding,
        List.getElem?_replicate, if_pos]
      rw [padding, List.length_replicate] at hlen
      dsimp only at hk
      omega
    · exact h.gap k hk hhigh fun sym hsym => hout sym (List.mem_cons_of_mem _ hsym)
  case first =>
    intro sym hsym
    cases hsym
    rfl
  case next =>
    intro i sym sym' hsym hsym'
    cases i with
    | zero =>
      cases hsym
      exact h.first sym' hsym'
    | succ i => exact h.next i sym sym' hsym hsym'

theorem sectionFrom_holds (bytes : List UInt8) (named : List (String × List UInt8)) :
    Holds bytes.length (symbolsFrom bytes.length (named.map fun p => (p.1, p.2.length))) (named.map Prod.snd)
      (sectionFrom bytes (named.map Prod.snd)) := by
  induction named generalizing bytes with
  | nil =>
    refine ⟨rfl, by simp [symbolsFrom], fun k hlow hhigh _ => ?_, by simp [symbolsFrom], by simp [symbolsFrom]⟩
    exact absurd hhigh (Nat.not_lt.mpr hlow)
  | cons p named ih =>
    have hrest := ih (bytes ++ padding bytes.length ++ p.2)
    rw [length_step] at hrest
    exact hrest.cons

end DirectPage.Object
