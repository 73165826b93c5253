import DirectPage.Proofs.ClosedFlow
import DirectPage.Proofs.Loaded

/-! Compiled functions that control does not leave but by a return, a trap or a call. -/
namespace DirectPage

/-- A function whose branches lead to its own instructions, and whose last instruction control does not go past. -/
structure EncodedFunction.Closed (e : EncodedFunction) : Prop where
  code : ∃ rest, e.code = encodeAll e.instructions ++ rest
  branches : ∀ (k : Nat) i d, e.instructions[k]? = some i → i.branchOffset? = some d →
    ∃ j < e.instructions.length, (startOf e.instructions (k + 1) : Int) + d.toInt = startOf e.instructions j
  jumps : ∀ i ∈ e.instructions, i.flow = .away → ∃ d, i.branchOffset? = some d
  ends : ∃ i, e.instructions.getLast? = some i ∧ i.closes = true

namespace Stream

variable {s : Stream} {e : EncodedFunction} {i : Instruction}

private theorem branchOffset?_mapOperand (i : Instruction) (f : Imm → Imm) :
    (i.mapOperand f).branchOffset? = i.branchOffset? := by
  cases i <;> rfl

private theorem flow_away_mapOperand {f : Imm → Imm} (h : (i.mapOperand f).flow = .away) : i.flow = .away := by
  cases i with
  | absolute op addr => cases op <;> first | rfl | cases h
  | _ => exact h

private theorem flow_of_branchOffset? {d : Word} (h : i.branchOffset? = some d) : i.flow = .away := by
  cases i with
  | branch | branchLong | bra | brl => rfl
  | _ => cases h

private theorem closes_mapOperand (i : Instruction) (f : Imm → Imm) : (i.mapOperand f).closes = i.closes := by
  cases i <;> rfl

/-- Layout keeps control within a function. -/
theorem Closed.laidOut (h : s.Closed) (hlaid : s.LaidOut e) : e.Closed := by
  have hlen := hlaid.length_eq
  have hold {k : Nat} {i : Instruction} (hi : e.instructions[k]? = some i) :
      (∃ l, (k, l) ∈ s.fixups) ∨
        ∃ old f, s.instructions[k]? = some old ∧ (∀ l, (k, l) ∉ s.fixups) ∧ i = old.mapOperand f := by
    have hlt : k < s.instructions.size := hlen ▸ (List.getElem?_eq_some_iff.mp hi).1
    by_cases hf : ∃ l, (k, l) ∈ s.fixups
    · exact .inl hf
    · have hf : ∀ l, (k, l) ∉ s.fixups := fun l hl => hf ⟨l, hl⟩
      obtain ⟨new, hnew, hres⟩ := hlaid.operands k _ (Array.getElem?_eq_getElem hlt) hf
      obtain ⟨f, rfl⟩ := hres.eq_mapOperand
      cases hi.symm.trans hnew
      exact .inr ⟨_, f, Array.getElem?_eq_getElem hlt, hf, rfl⟩
  refine ⟨?_, fun k i d hi hd => ?_, fun i hi haway => ?_, ?_⟩
  · obtain ⟨pad, -, -, hcode⟩ := hlaid.code_eq
    exact ⟨_, hcode⟩
  · rcases hold hi with ⟨l, hl⟩ | ⟨old, f, ho, hf, rfl⟩
    · obtain ⟨⟨p, hp, hbound⟩, -⟩ := h.leads k l hl
      obtain ⟨old, form, field, kind, target, disp, -, -, hfield, hnew, hden, htarget, -, hint, -⟩ :=
        hlaid.branches k l hl
      cases hi.symm.trans hnew
      have hdisp : (form.withBranchOffset (BitVec.ofInt 32 disp)).branchOffset? = some (BitVec.ofInt 32 disp) := by
        cases form <;> first | rfl | cases hfield
      cases hdisp.symm.trans hd
      cases hden with
      | instr hl' _ =>
        cases hbound.symm.trans hl'
        exact ⟨p, by omega, by rw [hint, htarget]⟩
      | constant hl' => cases hbound.symm.trans hl'
    · rw [branchOffset?_mapOperand] at hd
      obtain ⟨l, hl⟩ := h.waits k old ho (flow_of_branchOffset? hd)
      exact absurd hl (hf l)
  · obtain ⟨k, hk⟩ := List.mem_iff_getElem?.mp hi
    rcases hold hk with ⟨l, hl⟩ | ⟨old, f, ho, hf, rfl⟩
    · obtain ⟨old, form, field, kind, target, disp, -, -, hfield, hnew, -⟩ := hlaid.branches k l hl
      cases hk.symm.trans hnew
      cases form <;> first | exact ⟨_, rfl⟩ | cases hfield
    · obtain ⟨l, hl⟩ := h.waits k old ho (flow_away_mapOperand haway)
      exact absurd hl (hf l)
  · obtain ⟨last, hlast, hcloses⟩ := h.ends
    rw [Array.back?_eq_getElem?] at hlast
    have hlt : s.instructions.size - 1 < e.instructions.length := hlen ▸ (Array.getElem?_eq_some_iff.mp hlast).1
    have hget := List.getElem?_eq_getElem hlt
    refine ⟨e.instructions[s.instructions.size - 1], by rw [List.getLast?_eq_getElem?, hlen, hget], ?_⟩
    rcases hold hget with ⟨l, hl⟩ | ⟨old, f, ho, -, he⟩
    · obtain ⟨old, form, field, kind, target, disp, ho, hform, -, hnew, -⟩ := hlaid.branches _ l hl
      rw [Option.some.inj (hget.symm.trans hnew)]
      cases hlast.symm.trans ho
      obtain ⟨short, hshort, hrelaxed⟩ := h.wellFormed.fixups_short _ l hl
      cases ho.symm.trans hshort
      -- A branch that closes is one that is always taken, in short or long form.
      cases last with
      | bra offset => rcases hform with rfl | hform <;> first | rfl | (cases hform; rfl)
      | branch cond offset => cases hcloses
      | _ => cases hrelaxed
    · cases hlast.symm.trans ho
      rw [he, closes_mapOperand, hcloses]

end Stream

/-- The machines that control comes to from the start of a piece of code. A call is taken to come back behind its
instruction, whatever it did to the machine but for the code; returns and traps end the way. -/
inductive Machine.Comes (code : AddressMap (Option Instruction) 32) (start : Word) : Machine → Prop
  | enter {m : Machine} : m.pc = start → m.code = code → Comes code start m
  | step {m m' : Machine} {i : Instruction} : Comes code start m → code.get m.pc.toNat = some i →
      i.flow = .next ∨ i.flow = .away → m.step = .ok m' → Comes code start m'
  | resume {m m' : Machine} {i : Instruction} : Comes code start m → code.get m.pc.toNat = some i →
      ((∃ target, i.flow = .call target) ∨ ∃ slot, i.flow = .callVia slot) →
      m'.pc = m.pc + BitVec.ofNat 32 i.size → m'.code = code → Comes code start m'

namespace EncodedFunction.Closed

variable {e : EncodedFunction} {base : Nat} {code : AddressMap (Option Instruction) 32}

variable {i : Instruction} {m' m : Machine}

/-- An instruction that control goes past is not the last. -/
private theorem succ_lt (h : e.Closed) {k : Nat} (hi : e.instructions[k]? = some i)
    (hcloses : i.closes = false) : k + 1 < e.instructions.length := by
  have hlt := (List.getElem?_eq_some_iff.mp hi).1
  refine Nat.lt_of_le_of_ne hlt fun he => ?_
  obtain ⟨last, hlast, hc⟩ := h.ends
  rw [List.getLast?_eq_getElem?, ← he, Nat.add_sub_cancel] at hlast
  cases hi.symm.trans hlast
  rw [hcloses] at hc
  cases hc

private theorem closes_of_next (h : i.flow = .next) : i.closes = false := by
  cases i with
  | implied op => cases op <;> first | rfl | cases h
  | bra | brl => cases h
  | _ => rfl

private theorem closes_of_call (h : (∃ target, i.flow = .call target) ∨ ∃ slot, i.flow = .callVia slot) :
    i.closes = false := by
  rcases h with ⟨_, h⟩ | ⟨_, h⟩ <;> cases i with
  | implied op => cases op <;> cases h
  | bra | brl => cases h
  | _ => rfl

/-- An executed branch continues behind itself or where it leads to. -/
private theorem exec_branch {d : Word} (hd : i.branchOffset? = some d) (h : m.exec i = .ok m') :
    m'.code = m.code ∧ (m'.pc = m.pc + d ∨ m'.pc = m.pc ∧ i.closes = false) := by
  cases i with
  | branch cond offset | branchLong cond offset =>
    cases hd
    cases h
    split
    · exact ⟨rfl, .inl rfl⟩
    · exact ⟨rfl, .inr ⟨rfl, rfl⟩⟩
  | bra offset | brl offset =>
    cases hd
    cases h
    exact ⟨rfl, .inl rfl⟩
  | _ => cases hd

private theorem exec_next (hi : i.flow = .next) (h : m.exec i = .ok m') : m'.code = m.code ∧ m'.pc = m.pc := by
  have hmirror := (m.exec_placed m.pc m.code hi).eq
  rw [show m.placed m.pc m.code = m from rfl, h] at hmirror
  have hm : m' = m'.placed m.pc m.code := Except.ok.inj hmirror
  rw [hm]
  exact ⟨rfl, rfl⟩

def At (e : EncodedFunction) (base : Nat) (code : AddressMap (Option Instruction) 32) (m : Machine) : Prop :=
  m.code = code ∧ ∃ k i, e.instructions[k]? = some i ∧ m.pc = addressOf e base k

section Placed

variable (h : e.Closed) (hfits : base + (encodeAll e.instructions).length ≤ 4294967296)
  (hcode : ∀ (k : Nat) i, e.instructions[k]? = some i → code.get (base + startOf e.instructions k) = some i)

variable {m : Machine} {i : Instruction} {k : Nat}

private theorem At.of_lt (hk : k < e.instructions.length) (hc : m.code = code) (hpc : m.pc = addressOf e base k) :
    At e base code m :=
  ⟨hc, k, _, List.getElem?_eq_getElem hk, hpc⟩

private theorem addressOf_succ (hi : e.instructions[k]? = some i) :
    addressOf e base k + BitVec.ofNat 32 i.size = addressOf e base (k + 1) := by
  rw [addressOf, addressOf, startOf_succ hi, ← Nat.add_assoc, BitVec.ofNat_add (base + _)]

private theorem addressOf_add {j : Nat} {d : Word}
    (hd : (startOf e.instructions k : Int) + d.toInt = startOf e.instructions j) :
    addressOf e base k + d = addressOf e base j := by
  have hofInt : d = BitVec.ofInt 32 d.toInt := BitVec.ofInt_toInt.symm
  rw [addressOf, addressOf, ← BitVec.ofInt_natCast, ← BitVec.ofInt_natCast, hofInt, ← BitVec.ofInt_add]
  congr 1
  omega

include hfits hcode in
/-- The instruction that a machine there executes. -/
private theorem At.fetched (hm : At e base code m) {j : Instruction} (hj : code.get m.pc.toNat = some j) :
    ∃ k, e.instructions[k]? = some j ∧ m.pc = addressOf e base k := by
  obtain ⟨-, k, i, hi, hpc⟩ := hm
  have hlt := startOf_le_length e.instructions (k + 1)
  have hpos := i.size_pos
  rw [startOf_succ hi] at hlt
  have haddr : (addressOf e base k).toNat = base + startOf e.instructions k := by
    rw [addressOf, BitVec.toNat_ofNat, Nat.mod_eq_of_lt (by omega)]
  rw [hpc, haddr, hcode k i hi] at hj
  cases hj
  exact ⟨k, hi, hpc⟩

include h hfits hcode

/-- One step leads to another instruction. -/
private theorem At.step {m' : Machine} (hm : At e base code m) (hi : code.get m.pc.toNat = some i)
    (hflow : i.flow = .next ∨ i.flow = .away) (hstep : m.step = .ok m') : At e base code m' := by
  obtain ⟨k, hk, hpc⟩ := hm.fetched hfits hcode hi
  rw [Machine.step, hm.1, hi] at hstep
  rcases hflow with hflow | hflow
  · obtain ⟨hc, hpc'⟩ := exec_next hflow hstep
    exact .of_lt (h.succ_lt hk (closes_of_next hflow)) hc (by rw [hpc', ← addressOf_succ hk, ← hpc])
  · obtain ⟨d, hd⟩ := h.jumps i (List.mem_of_getElem? hk) hflow
    obtain ⟨hc, hpc' | ⟨hpc', hcloses⟩⟩ := exec_branch hd hstep
    · obtain ⟨j, hj, htarget⟩ := h.branches k i d hk hd
      exact .of_lt hj hc (by rw [hpc', ← addressOf_add htarget, ← addressOf_succ hk, ← hpc])
    · exact .of_lt (h.succ_lt hk hcloses) hc (by rw [hpc', ← addressOf_succ hk, ← hpc])

/-- Wherever control comes to from the first byte is the first byte of an instruction. -/
theorem at_of_comes (hm : m.Comes code (BitVec.ofNat 32 base)) : At e base code m := by
  induction hm with
  | enter hpc hc =>
    obtain ⟨last, hlast, -⟩ := h.ends
    have hpos : 0 < e.instructions.length := List.length_pos_of_mem (List.mem_of_getLast? hlast)
    exact .of_lt hpos hc (by rw [hpc, addressOf, startOf_zero, Nat.add_zero])
  | step _ hi hflow hstep ih => exact ih.step h hfits hcode hi hflow hstep
  | resume _ hi hcall hpc hc ih =>
    obtain ⟨k, hk, hpc'⟩ := ih.fetched hfits hcode hi
    exact .of_lt (h.succ_lt hk (closes_of_call hcall)) hc (by rw [hpc, hpc', addressOf_succ hk])

end Placed

end EncodedFunction.Closed

/-- Every branch of a compiled function leads to the first byte of one of its instructions, the last of which control
does not go past; so once the function is loaded, control that enters it at its first byte is always at the first byte
of one of its instructions, until it returns or traps. -/
theorem compile_closed {f : Ir.Function} {options : Options} {e : EncodedFunction} (h : f.compile options = .ok e) :
    e.Closed ∧ ∀ (m : Machine) addr loaded, m.load e = .ok (addr, loaded) → ∀ m' : Machine, m'.Comes loaded.code addr →
      ∃ k i, e.instructions[k]? = some i ∧ m'.pc.toNat = addr.toNat + startOf e.instructions k ∧
        m'.code.get m'.pc.toNat = some i := by
  obtain ⟨_, _, _, _, t, -, -, ht, hlaid⟩ := compile_laidOut h
  have hclosed := (ht.cleaned options.cleanup).laidOut hlaid
  refine ⟨hclosed, fun m addr loaded hload m' hm' => ?_⟩
  rw [Machine.load] at hload
  split at hload
  · cases hload
  · next hroom =>
    cases hload
    obtain ⟨rest, hcode⟩ := hclosed.code
    have hfits : alignUp m.nextCode 4 + (encodeAll e.instructions).length < dataBase := by
      rw [hcode, List.length_append] at hroom
      omega
    rw [dataBase] at hfits
    have hplaced : ∀ (k : Nat) i, e.instructions[k]? = some i →
        (Machine.placeCode m.code (alignUp m.nextCode 4) e.instructions).get
          (alignUp m.nextCode 4 + startOf e.instructions k) = some i :=
      fun k i hi => get_placeCode (by omega) hi
    obtain ⟨hc, k, i, hi, hpc⟩ := hclosed.at_of_comes (by omega) hplaced hm'
    have hle := startOf_le_length e.instructions k
    have haddr : (addressOf e (alignUp m.nextCode 4) k).toNat = alignUp m.nextCode 4 + startOf e.instructions k := by
      rw [addressOf, BitVec.toNat_ofNat, Nat.mod_eq_of_lt (by omega)]
    have hstart : (BitVec.ofNat 32 (alignUp m.nextCode 4)).toNat = alignUp m.nextCode 4 := by
      rw [BitVec.toNat_ofNat, Nat.mod_eq_of_lt (by omega)]
    refine ⟨k, i, hi, by rw [hpc, haddr, hstart], ?_⟩
    rw [hc, hpc, haddr, hplaced k i hi]

section Detour

open Allocation

/-- Counts its parameter down to zero. The block that returns stands before the loop, and two blocks are never
entered. -/
def detour : Ir.Function where
  name := "detour"
  params := [0]
  returns := [.i32]
  blocks := [⟨[], .jump 3⟩, ⟨[], .jump 1⟩, ⟨[], .ret [0]⟩,
    ⟨[.binary .sub 0 0 (.imm 1#32)], .branchCc .ne 0 (.imm 0#32) 3 2⟩, ⟨[], .unreachable⟩]
  valueTypes := [.i32]

private def detourOps : Routine where
  name := "detour"
  blocks := [[.copy (.virt 0) (.phys (.general 0)), .jump 3], [],
    [.copy (.phys (.general 0)) (.virt 0), .ret [.general 0]],
    [.aluImm .add (.virt 0) (.virt 0) (-1#32), .brCc (.int .ne (.virt 0) (.imm 0#32)) 3, .jump 2], []]
  classes := [.gpr]
  liveIns := [.general 0]

private def detourCode : Routine :=
  { detourOps with
    blocks := [[.spAdjust (-4#32), .copy (.phys (.general 1)) (.phys (.general 0)), .jump 3], [],
      [.copy (.phys (.general 0)) (.phys (.general 1)), .spAdjust 4#32, .ret [.general 0]],
      [.aluImm .add (.phys (.general 1)) (.phys (.general 1)) (-1#32),
        .brCc (.int .ne (.phys (.general 1)) (.imm 0#32)) 3, .jump 2], []] }

private theorem compile_detour : ∃ e, detour.compile {} = .ok e ∧ e.code.length = 47 ∧
    e.instructions.getLast? = some (.bra (-30#32)) := by
  have hi : intervals detourOps = [⟨0, ⟨1, 13⟩⟩] := intervals_eq (by decide +kernel) (by decide +kernel)
  have hview : viewScan detourOps .base [⟨0, ⟨1, 13⟩⟩] = .ok ([(0, .general 1)], []) := by decide +kernel
  have hframed : detour.framed = .ok (wordFrame, detourCode) :=
    framed_of_scan rfl (by decide +kernel) hi hview (by decide +kernel)
  obtain ⟨e, he, hasm⟩ := compile_of_framed hframed {}
    (fun e => e.code.length == 47 && e.instructions.getLast? == some (.bra (-30#32))) (by decide +kernel)
  rw [Bool.and_eq_true, beq_iff_eq, beq_iff_eq] at hasm
  exact ⟨e, he, hasm⟩

/-- The last instruction goes back to the block that returns. -/
theorem compile_closed_detour : ∃ e addr loaded, detour.compile {} = .ok e ∧
    e.instructions.getLast? = some (.bra (-30#32)) ∧ ({} : Machine).load e = .ok (addr, loaded) ∧ e.Closed ∧
    ∀ m : Machine, m.Comes loaded.code addr → ∃ k i, e.instructions[k]? = some i ∧
      m.pc.toNat = addr.toNat + startOf e.instructions k ∧ m.code.get m.pc.toNat = some i := by
  obtain ⟨e, he, hlen, hlast⟩ := compile_detour
  have hroom : ¬ dataBase ≤ alignUp ({} : Machine).nextCode 4 + e.code.length := by
    rw [hlen]
    decide
  obtain ⟨hclosed, hruns⟩ := compile_closed he
  exact ⟨e, _, _, he, hlast, if_neg hroom, hclosed, hruns {} _ _ (if_neg hroom)⟩

end Detour

end DirectPage
