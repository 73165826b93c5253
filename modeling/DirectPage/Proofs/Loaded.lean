import DirectPage.Proofs.Layout
import DirectPage.Proofs.Thinning
import DirectPage.Simulator.Run

/-! A loaded function that makes no calls runs as its stream does. -/
namespace DirectPage

open Machine

theorem Instruction.size_pos (i : Instruction) : 0 < i.size := by cases i <;> exact Nat.succ_pos _

theorem startOf_le_length (is : List Instruction) (i : Nat) : startOf is i ≤ (encodeAll is).length := by
  have hsplit : encodeAll is = encodeAll (is.take i) ++ encodeAll (is.drop i) := by
    rw [encodeAll, encodeAll, encodeAll, ← List.flatMap_append, List.take_append_drop]
  rw [startOf, hsplit, List.length_append]
  exact Nat.le_add_right _ _

theorem length_le_encodeAll (is : List Instruction) : is.length ≤ (encodeAll is).length := by
  induction is with
  | nil => exact Nat.le_refl _
  | cons i is ih =>
    have := i.size_pos
    simp only [encodeAll, List.flatMap_cons, List.length_append, Instruction.encode_length, List.length_cons] at ih ⊢
    omega

section Place

variable {code : AddressMap (Option Instruction) 32} {is : List Instruction}

private theorem placeCode_before {a b : Nat} (hab : a < b) (hfits : b + (encodeAll is).length ≤ 4294967296) :
    (placeCode code b is).get a = code.get a := by
  induction is generalizing code b with
  | nil => rfl
  | cons i is ih =>
    have := i.size_pos
    simp only [encodeAll, List.flatMap_cons, List.length_append, Instruction.encode_length] at hfits
    rw [placeCode, ih (by omega) (by rw [encodeAll]; omega), AddressMap.get_set, if_neg]
    simp only [← BitVec.toNat_inj, BitVec.toNat_ofNat]
    omega

/-- Every instruction is at its address. -/
theorem get_placeCode {base i : Nat} {instr : Instruction} (hfits : base + (encodeAll is).length ≤ 4294967296)
    (h : is[i]? = some instr) : (placeCode code base is).get (base + startOf is i) = some instr := by
  induction is generalizing code base i with
  | nil => cases h
  | cons first is ih =>
    have := first.size_pos
    simp only [encodeAll, List.flatMap_cons, List.length_append, Instruction.encode_length] at hfits
    rw [placeCode]
    cases i with
    | zero =>
      cases h
      rw [startOf_zero, Nat.add_zero, placeCode_before (by omega) (by rw [encodeAll]; omega), AddressMap.get_set,
        if_pos rfl]
    | succ i =>
      rw [startOf_cons_succ, ← Nat.add_assoc]
      exact ih (by rw [encodeAll]; omega) h

end Place

variable {i : Instruction} {m : Machine} {e : EncodedFunction} {s : Stream}

theorem Machine.exec_mapOperand_congr {f g : Imm → Imm}
    (h : ∀ imm, i.operand? = some imm → m.operand (f imm) = m.operand (g imm)) :
    m.exec (i.mapOperand f) = m.exec (i.mapOperand g) := by
  cases i with
  | immediate op imm | absolute op imm | regAluImm op dst imm | floatMemAbs op prec freg imm =>
    simp only [Instruction.mapOperand, exec, h imm rfl]
  | _ => rfl

theorem Instruction.eq_of_flow_call {target : Imm} (h : i.flow = .call target) : i = .absolute .jsr target := by
  cases i with
  | absolute op imm =>
    cases op with
    | jsr =>
      cases h
      rfl
    | _ => cases h
  | implied op | direct op slot => cases op <;> cases h
  | _ => cases h

theorem Stream.OperandResolved.eq_mapOperand {old new : Instruction} (h : s.OperandResolved e old new) :
    ∃ f, new = old.mapOperand f := by
  rw [OperandResolved] at h
  split at h
  · obtain ⟨offset, -, rfl⟩ := h
    exact ⟨_, rfl⟩
  · exact ⟨id, by rw [h, old.mapOperand_id]⟩

def addressOf (e : EncodedFunction) (base i : Nat) : Word := BitVec.ofNat 32 (base + startOf e.instructions i)

def EncodedFunction.IsAt (e : EncodedFunction) (base : Nat) (code : AddressMap (Option Instruction) 32) : Prop :=
  ∀ (i : Nat) instr, e.instructions[i]? = some instr → code.get (addressOf e base i).toNat = some instr

theorem Stream.Denotes.place {label offset : Nat} (hd : s.Denotes e label offset)
    (hpool : ∀ j, s.poolLabel? j ≠ some label) :
    ∃ p, s.labelPlace? label = some p ∧ offset = startOf e.instructions p := by
  cases hd with
  | @instr p hl hle => exact ⟨p, by rw [Stream.labelPlace?, hl]; rfl, rfl⟩
  | constant _ hj => exact absurd hj (hpool _)

namespace EncodedFunction.IsAt

variable {s : Stream} {e : EncodedFunction} {base : Nat} {code : AddressMap (Option Instruction) 32}
  (h : e.IsAt base code) {instr : Instruction}
include h

theorem fetch {i : Nat} (hi : e.instructions[i]? = some instr) (m : Machine) :
    (m.placed (addressOf e base i) code).step = (m.placed (addressOf e base (i + 1)) code).exec instr := by
  have hnext : addressOf e base i + BitVec.ofNat 32 instr.size = addressOf e base (i + 1) := by
    rw [addressOf, addressOf, startOf_succ hi, ← Nat.add_assoc, BitVec.ofNat_add (base + _)]
  unfold Machine.step
  rw [show (m.placed (addressOf e base i) code).code.get (m.placed (addressOf e base i) code).pc.toNat = some instr
    from h i instr hi]
  exact congrArg (fun pc => (m.placed pc code).exec instr) hnext

theorem step_branch (hlaid : s.LaidOut e) {i label : Nat} (hi : s.instructions[i]? = some instr)
    (hl : (i, label) ∈ s.fixups) (hpool : ∀ j, s.poolLabel? j ≠ some label) (m : Machine) :
    ∃ j, s.branch i label instr m = .running j m ∧
      (m.placed (addressOf e base i) code).step = .ok (m.placed (addressOf e base j) code) := by
  obtain ⟨old, form, field, kind, target, d, hold, hform, hfield, hnew, hd, htarget, -⟩ := hlaid.branches i label hl
  obtain rfl : instr = old := Option.some.inj (hi.symm.trans hold)
  obtain ⟨p, hp, rfl⟩ := hd.place hpool
  have hjump : addressOf e base (i + 1) + BitVec.ofInt 32 d = addressOf e base p := by
    rw [addressOf, addressOf, ← BitVec.ofInt_natCast, ← BitVec.ofInt_natCast, ← BitVec.ofInt_add]
    congr 1
    omega
  have htaken : instr.taken m.flags = form.taken m.flags := by
    rcases hform with rfl | hform
    · rfl
    · cases instr <;> cases hform <;> rfl
  have hexec : (m.placed (addressOf e base (i + 1)) code).exec (form.withBranchOffset (BitVec.ofInt 32 d)) =
      .ok (if form.taken m.flags then m.placed (addressOf e base p) code
        else m.placed (addressOf e base (i + 1)) code) := by
    rw [← hjump]
    cases form with
    | branch | branchLong | bra | brl => rfl
    | _ => cases hfield
  rw [h.fetch hnew, Stream.branch, htaken, hp, hexec]
  split
  · exact ⟨p, rfl, rfl⟩
  · exact ⟨i + 1, rfl, rfl⟩

end EncodedFunction.IsAt

structure Loaded (s : Stream) (e : EncodedFunction) (base : Nat)
    (code : AddressMap (Option Instruction) 32) : Prop where
  wellFormed : s.WellFormed
  pool : s.pool = []
  laid : s.LaidOut e
  fits : base + e.code.length < dataBase
  code : ∀ (i : Nat) instr, e.instructions[i]? = some instr → code.get (base + startOf e.instructions i) = some instr

theorem Loaded.of_load {loaded : Machine} {addr : Word} (hw : s.WellFormed) (hpool : s.pool = [])
    (hlaid : s.LaidOut e) (h : m.load e = .ok (addr, loaded)) :
    ∃ base, addr = BitVec.ofNat 32 base ∧ Loaded s e base loaded.code ∧
      loaded.symbols = (e.name, addr) :: m.symbols := by
  rw [load] at h
  split at h
  · cases h
  · next hroom =>
    cases h
    have hfits : alignUp m.nextCode 4 + e.code.length < dataBase := Nat.lt_of_not_le hroom
    obtain ⟨pad, -, -, hcode⟩ := hlaid.code_eq
    refine ⟨_, rfl, ⟨hw, hpool, hlaid, hfits, fun i instr hi => get_placeCode ?_ hi⟩, rfl⟩
    rw [hcode, List.length_append, dataBase] at hfits
    omega

def Stream.worldAt (s : Stream) (e : EncodedFunction) (base : Nat) : World where
  token label := (s.labelPlace? label).elim 0#32 (addressOf e base)
  call _ _ := abort
  call_alike _ _ _ _ := rfl

namespace Loaded

variable {s : Stream} {e : EncodedFunction} {base : Nat} {code : AddressMap (Option Instruction) 32}
  (h : Loaded s e base code)
include h

private theorem code_lt : base + (encodeAll e.instructions).length < dataBase := by
  obtain ⟨pad, -, -, hcode⟩ := h.laid.code_eq
  have := h.fits
  rw [hcode, List.length_append] at this
  omega

theorem size_lt : s.instructions.size < dataBase := by
  have := length_le_encodeAll e.instructions
  have := h.code_lt
  rw [← h.laid.length_eq]
  omega

theorem start_lt (i : Nat) : base + startOf e.instructions i < dataBase := by
  have := startOf_le_length e.instructions i
  have := h.code_lt
  omega

theorem toNat_addressOf (i : Nat) : (addressOf e base i).toNat = base + startOf e.instructions i := by
  have := h.start_lt i
  rw [addressOf, BitVec.toNat_ofNat, Nat.mod_eq_of_lt]
  rw [dataBase] at this
  omega

theorem addressOf_ne_sentinel (i : Nat) : addressOf e base i ≠ returnSentinel := by
  intro he
  have hlt := h.start_lt i
  rw [← h.toNat_addressOf, he] at hlt
  exact absurd hlt (by decide)

theorem isAt : e.IsAt base code := by
  intro i instr hi
  rw [h.toNat_addressOf, h.code i instr hi]

private theorem poolLabel?_ne (label j : Nat) : s.poolLabel? j ≠ some label := by
  rw [Stream.poolLabel?, h.pool]
  intro he
  cases he

variable {old new : Instruction} {m : Machine}

/-- A label operand has the same value as an offset from the function and as an address of its own. -/
private theorem exec_resolved (ho : s.OperandResolved e old new)
    (hs : m.symbols.lookup e.name = some (BitVec.ofNat 32 base)) :
    m.exec new = m.exec (old.mapOperand (s.worldAt e base).value) := by
  rw [Stream.OperandResolved] at ho
  split at ho
  · next label hlabel =>
    obtain ⟨offset, hd, rfl⟩ := ho
    obtain ⟨p, hp, rfl⟩ := hd.place (h.poolLabel?_ne label)
    refine exec_mapOperand_congr fun imm himm => ?_
    obtain rfl : .label label = imm := Option.some.inj (hlabel.symm.trans himm)
    simp only [operand, hs, orFail, ok_bind, World.value, Stream.worldAt, hp, Option.elim_some, addressOf,
      BitVec.ofNat_add]
    rfl
  · next hlabel =>
    have hsame : m.exec (old.mapOperand id) = m.exec (old.mapOperand (s.worldAt e base).value) :=
      exec_mapOperand_congr fun imm himm => by
        cases imm with
        | label l => exact absurd himm (hlabel l)
        | _ => rfl
    rw [old.mapOperand_id] at hsame
    rwa [ho]

/-- What a step of the loaded code does, given what a step of the stream does from the same machine. -/
def Simulates (e : EncodedFunction) (base : Nat) (code : AddressMap (Option Instruction) 32) (m : Machine)
    (x : Checked Machine) : Status → Prop
  | .running j m' => x = .ok (m'.placed (addressOf e base j) code) ∧ m'.symbols = m.symbols
  | .ended .returned m' => x = .ok { m' with code := code }
  | .ended (.faulted f) _ => f ≠ .abort → x = .error f
  | .ended _ _ => True

private theorem step_perform (hs : m.symbols.lookup e.name = some (BitVec.ofNat 32 base)) (i : Nat)
    (ho : s.OperandResolved e old new) : Simulates e base code m ((m.placed (addressOf e base (i + 1)) code).exec new)
      ((s.worldAt e base).perform i old m).2 := by
  rw [World.perform]
  cases hflow : old.flow with
  | call target =>
    obtain rfl := Instruction.eq_of_flow_call hflow
    cases target with
    | value | label => exact fun hf => absurd rfl hf
    | symbol sym =>
      obtain rfl : new = .absolute .jsr (.symbol sym) := ho
      simp only [exec, operand_placed, World.value]
      cases m.operand (.symbol sym) with
      | error f => exact fun _ => rfl
      | ok target => exact fun hf => absurd rfl hf
  | callVia slot => exact fun hf => absurd rfl hf
  | ret =>
    obtain rfl := Instruction.eq_of_flow_ret hflow
    obtain rfl : new = .implied .rts := ho
    rw [exec_rts_placed]
    cases m.exec (.implied .rts) with
    | error f => exact fun _ => rfl
    | ok m' => rfl
  | trap | away => trivial
  | next =>
    have hnext : new.flow = .next := by
      obtain ⟨f, rfl⟩ := ho.eq_mapOperand
      exact Instruction.flow_mapOperand hflow f
    obtain ⟨heq, hsym, -⟩ := m.exec_placed (addressOf e base (i + 1)) code hnext
    rw [h.exec_resolved ho hs] at heq hsym
    rw [heq]
    generalize m.exec (old.mapOperand (s.worldAt e base).value) = x at hsym ⊢
    cases x with
    | error f => exact fun _ => rfl
    | ok m' => exact ⟨rfl, Except.ok.inj hsym⟩

theorem step (hs : m.symbols.lookup e.name = some (BitVec.ofNat 32 base)) (i : Nat) :
    Simulates e base code m (m.placed (addressOf e base i) code).step
      (s.step (s.worldAt e base) (.running i m)).2 := by
  simp only [Stream.step]
  split
  · trivial
  · next instr hi =>
    split
    · next label hl =>
      have hmem := (Stream.lookup_eq_some_iff h.wellFormed).mp hl
      obtain ⟨j, hj, hstep⟩ := h.isAt.step_branch h.laid hi hmem (h.poolLabel?_ne label) m
      rw [hj, hstep]
      exact ⟨rfl, rfl⟩
    · next hl =>
      obtain ⟨new, hnew, hop⟩ := h.laid.operands i instr hi fun label hmem => by
        rw [(Stream.lookup_eq_some_iff h.wellFormed).mpr hmem] at hl
        cases hl
      rw [h.isAt.fetch hnew]
      exact h.step_perform hs i hop

/-- What a run of the loaded code shows of the end of a run of the stream. -/
def Shows (code : AddressMap (Option Instruction) 32) (r : Ran Nat) : Exit → Machine → Prop
  | .returned, m => m.pc = returnSentinel → ∃ steps, r = ({ m with code := code }, .ok steps)
  | .faulted f, _ => f ≠ .abort → r.2 = .error f
  | _, _ => True

theorem run {n left : Nat} (hn : n ≤ left) {x : Exit} {m' : Machine} {i : Nat}
    (hs : m.symbols.lookup e.name = some (BitVec.ofNat 32 base))
    (hr : (s.run (s.worldAt e base) n (.running i m)).2 = .ended x m') (steps : Nat) :
    Shows code (runFrom left steps (m.placed (addressOf e base i) code)) x m' := by
  induction n generalizing left i m steps with
  | zero => cases hr
  | succ n ih =>
    obtain ⟨left, rfl⟩ : ∃ k, left = k + 1 := ⟨left - 1, by omega⟩
    have hne : (m.placed (addressOf e base i) code).pc ≠ returnSentinel := h.addressOf_ne_sentinel i
    have hstep := h.step hs i
    rw [Stream.run] at hr
    generalize (s.step (s.worldAt e base) (.running i m)).2 = st at hr hstep
    cases st with
    | running j m1 =>
      obtain ⟨heq, hsym⟩ := hstep
      rw [runFrom, if_neg hne]
      rw [heq]
      exact ih (by omega) (hsym ▸ hs) hr (steps + 1)
    | ended x1 m1 =>
      rw [Stream.run_ended] at hr
      cases hr
      cases x with
      | returned =>
        intro hpc
        rw [runFrom, if_neg hne]
        rw [show (m.placed (addressOf e base i) code).step = _ from hstep]
        refine ⟨steps + 1, ?_⟩
        unfold runFrom
        exact if_pos hpc
      | faulted f =>
        intro hf
        rw [runFrom, if_neg hne]
        rw [hstep hf]
      | _ => trivial

end Loaded

end DirectPage
