import DirectPage.Proofs.CodeScope
import DirectPage.Proofs.StackDepth

/-! What the instructions of an operation do to the stack pointer and to the frame base.

The way of the stack pointer through straight code is a sum, and the frame base is a slot, which stays where
no instruction names it and no address leads to it. So every operation makes the step that is said of it. -/
namespace DirectPage

/-- Straight code moves the stack pointer by the sum of what its instructions do. -/
theorem Machine.advanceAll_sp {m m' : Machine} {is : List Instruction} {w : Word} (h : m.advanceAll is = .ok m')
    (hw : spMove? is = some w) : m'.sp = m.sp + w := by
  induction is generalizing m w with
  | nil =>
    cases h
    cases hw
    rw [BitVec.add_zero]
  | cons i is ih =>
    rw [advanceAll_cons] at h
    obtain ⟨m1, h1, h⟩ := bind_eq_ok.mp h
    obtain ⟨v, hv, hw⟩ := Option.bind_eq_some_iff.mp hw
    obtain ⟨u, hu, hw⟩ := Option.bind_eq_some_iff.mp hw
    cases hw
    rw [advance] at h1
    split at h1
    · rw [ih h hu, (exec_changes h1).sp v hv, BitVec.add_assoc]
    · cases h1

namespace Action

/-- Along a run no write to where an address leads comes to the word at `a`. -/
def Spares (a : Nat) : Option Nat × Machine → List Action → Prop
  | _, [] => True
  | st, act :: as =>
    (∀ i m, act = .emit i → st = (none, m) → i.destSlot? = none → ∀ addr n, m.destination? i = some (addr, n) →
      addr.toNat + n ≤ a ∨ a + 4 ≤ addr.toNat) ∧ ∀ st', step st act = .ok st' → Spares a st' as

variable {a : Nat} {st st' : Option Nat × Machine} {act : Action} {as : List Action}

/-- A step executes an instruction or leaves the machine as it is. -/
theorem step_cases (h : step st act = .ok st') :
    (∃ i m m', act = .emit i ∧ st = (none, m) ∧ m.exec i = .ok m' ∧ st' = (none, m')) ∨ st'.2 = st.2 := by
  rcases st with ⟨_ | label, m⟩
  · cases act with
    | emit i =>
      rw [step, Machine.advance] at h
      split at h
      · cases hm : m.exec i with
        | error e =>
          rw [hm] at h
          cases h
        | ok m' =>
          rw [hm] at h
          exact .inl ⟨i, m, m', rfl, rfl, hm, (Except.ok.inj h).symm⟩
      · cases h
    | _ =>
      cases h
      exact .inr rfl
  · cases act <;> cases h <;> exact .inr rfl

/-- A word stays that no instruction names and no address leads to. -/
theorem run_word (ha : a + 4 ≤ 256)
    (hslots : ∀ i, .emit i ∈ as → ∀ d, i.destSlot? = some d → d.toNat + 4 ≤ a ∨ a + 4 ≤ d.toNat)
    (hspares : Spares a st as) (hrun : run st as = .ok st') : st'.2.memory.word a = st.2.memory.word a := by
  induction as generalizing st with
  | nil =>
    cases hrun
    rfl
  | cons act as ih =>
    rw [run_cons] at hrun
    obtain ⟨st1, hstep, hrun⟩ := bind_eq_ok.mp hrun
    refine (ih (fun i hi => hslots i (List.mem_cons_of_mem _ hi)) (hspares.2 st1 hstep) hrun).trans ?_
    rcases step_cases hstep with ⟨i, m, m', rfl, rfl, hexec, rfl⟩ | hsame
    · exact Machine.exec_word hexec ha (hslots i List.mem_cons_self) (hspares.1 i m rfl rfl)
    · rw [hsame]

theorem run_sp (hlevel : ∀ i, .emit i ∈ as → i.spMove? = some 0#32) (hrun : run st as = .ok st') :
    st'.2.sp = st.2.sp := by
  induction as generalizing st with
  | nil =>
    cases hrun
    rfl
  | cons act as ih =>
    rw [run_cons] at hrun
    obtain ⟨st1, hstep, hrun⟩ := bind_eq_ok.mp hrun
    refine (ih (fun i hi => hlevel i (List.mem_cons_of_mem _ hi)) hrun).trans ?_
    rcases step_cases hstep with ⟨i, m, m', rfl, rfl, hexec, rfl⟩ | hsame
    · rw [(Machine.exec_changes hexec).sp _ (hlevel i List.mem_cons_self), BitVec.add_zero]
    · rw [hsame]

end Action

namespace Expansion

open Machine

variable {s : Stream} {frame : Frame} {folding : Bool} {b : Nat} {op : Pseudo} {as : List Action} {m m' : Machine}
  {i : Instruction} {d : UInt8}

/-- Selections and branches leave the stack pointer alone and write no slot but that of the result. -/
private theorem expands_cases (h : Expands s frame op as) :
    (∃ is, code s frame op = .ok is ∧ as = is.map .emit) ∨ (∀ r : StackRegs, r.spAfter? frame op = some r.sp) ∧
      ∀ i, .emit i ∈ as → i.spMove? = some 0#32 ∧ ∀ d, i.destSlot? = some d → Writable op.result? d := by
  have hmove {dst : Reg} {is : List Instruction} (h : Moves dst is) {i : Instruction} (hi : i ∈ is) :
      i.spMove? = some 0#32 ∧ ∀ d, i.destSlot? = some d → Writable dst.register? d := by
    cases h with
    | none => cases hi
    | word source hslot =>
      cases List.mem_singleton.mp hi
      exact ⟨rfl, fun d hd => Option.some.inj hd ▸ Reg.writable_slot hslot⟩
    | float d source =>
      cases List.mem_singleton.mp hi
      exact ⟨rfl, nofun⟩
  have hcompare {is : List Instruction} (h : Compares is) {i : Instruction} (hi : i ∈ is) :
      i.spMove? = some 0#32 ∧ ∀ d, i.destSlot? = some d → Writable op.result? d := by
    cases h <;> simp only [List.mem_cons, List.not_mem_nil, or_false] at hi
    · subst hi
      exact ⟨rfl, nofun⟩
    · rcases hi with rfl | rfl <;> exact ⟨rfl, nofun⟩
    · subst hi
      exact ⟨rfl, nofun⟩
  cases h with
  | code hcode => exact .inl ⟨_, hcode, rfl⟩
  | move h => exact .inr ⟨fun _ => rfl, fun i hi => hmove h (by simpa using hi)⟩
  | @select _ _ _ _ code first second _ hc hfirst hsecond =>
    refine .inr ⟨fun _ => rfl, fun i hi => ?_⟩
    have hi : i ∈ code ∨ i ∈ first ∨ i ∈ second := by simpa [planActions] using hi
    rcases hi with hi | hi | hi
    · exact hcompare hc hi
    · exact hmove hfirst hi
    · exact hmove hsecond hi
  | branch hc => exact .inr ⟨fun _ => rfl, fun i hi => hcompare hc (by simpa [planActions] using hi)⟩
  | fall | jump => exact .inr ⟨fun _ => rfl, fun i hi => by simp at hi⟩

private theorem writable_emitted (h : Expands s frame op as) (hi : .emit i ∈ as) (hd : i.destSlot? = some d) :
    Writable op.result? d := by
  rcases expands_cases h with ⟨is, hcode, rfl⟩ | ⟨-, hslots⟩
  · have hi : i ∈ is := by simpa using hi
    cases hret : op.isReturn with
    | true =>
      cases op with
      | ret =>
        cases hcode
        cases List.mem_singleton.mp hi
        cases hd
      | _ => cases hret
    | false =>
      have htame : Gives False (Tames (Writable op.result?) (s.blocks + s.pool.length)) (code s frame op) :=
        gives_code (S := ⟨[], 0, 0, 0⟩) False.elim False.elim hret
      exact (htame.each is hcode i hi).slot d hd
  · exact (hslots i hi).2 d hd

private theorem mem_defs_of_result? {r : Register} (h : op.result? = some r) (hset : op ≠ .setFrameBase) :
    .phys r ∈ op.defs := by
  unfold Pseudo.result? at h
  split at h
  · cases h
    exact List.mem_singleton_self _
  · exact absurd rfl hset
  · next hpop _ =>
    obtain ⟨q, hq, hr⟩ := Option.bind_eq_some_iff.mp h
    cases q with
    | virt v => cases hr
    | phys p =>
      cases hr
      unfold Pseudo.defs
      split
      · cases hq
      · exact absurd rfl (hpop _)
      · rw [hq]
        exact List.mem_singleton_self _

/-- The slot of the frame base is written by operations that have it as their result. -/
private theorem clear_of_writable (hw : Writable op.result? d) (hset : op ≠ .setFrameBase)
    (hdefs : .phys frameBase ∉ op.defs) : d.toNat + 4 ≤ 116 ∨ 116 + 4 ≤ d.toNat := by
  rcases hw with hscratch | ⟨r, n, hr, hn, rfl⟩
  · cases hscratch
    exact .inr (by decide)
  · have hne : r ≠ frameBase := fun he => hdefs (he ▸ mem_defs_of_result? hr hset)
    have hslot : n < 64 ∧ n.toNat ≠ 29 := by
      cases r with
      | general k =>
        obtain ⟨hk, rfl⟩ := of_ite_ok hn
        exact ⟨hk, fun he => hne (congrArg Register.general (UInt8.toNat_inj.mp he))⟩
      | float k =>
        obtain ⟨hk, rfl⟩ := of_ite_ok hn
        have hk' : k.toNat < 16 := hk
        exact ⟨UInt8.lt_trans hk (by decide), by omega⟩
      | _ => cases hn
    rw [UInt8.toNat_mul_four hslot.1]
    omega

/-- Where the stack pointer is behind the instructions of an operation. -/
private theorem sp_of_code {is : List Instruction} (hcode : code s frame op = .ok is) (hrun : m.advanceAll is = .ok m')
    {w : Word} (hw : m.stackRegs.spAfter? frame op = some w) : m'.sp = w := by
  have hlevel (hstay : op.movesSp = false) : m'.sp = m.sp := by
    have hcalm : Gives False (Calms (Writable op.result?) (s.blocks + s.pool.length)) (code s frame op) :=
      gives_calm (S := ⟨[], 0, 0, 0⟩) False.elim False.elim hstay
    rw [advanceAll_sp hrun (hcalm.each is hcode).level, BitVec.add_zero]
  cases op with
  | push r =>
    obtain ⟨slot, -, hcode⟩ := bind_eq_ok.mp hcode
    cases hcode
    cases hw
    rw [advanceAll_sp (w := -4#32) hrun rfl]
    exact (BitVec.sub_eq_add_neg _ _).symm
  | pop r =>
    obtain ⟨slot, -, hcode⟩ := bind_eq_ok.mp hcode
    cases hcode
    cases hw
    exact advanceAll_sp (w := 4#32) hrun rfl
  | spAdjust delta =>
    cases hcode
    cases hw
    exact ((spAdjust_does delta m).of_ok hrun).2
  | restoreSp =>
    have hstep : StackStep frame .restoreSp m.stackRegs m'.stackRegs := (restoreSp_stackStep hcode).of_ok hrun
    exact hstep.sp w hw
  | callStackDown size | callStackUp size =>
    cases hw
    exact congrArg StackRegs.sp ((callStack_stackRegs hcode).of_ok hrun)
  | dynAlloc => cases hw
  | call target =>
    cases target with
    | symbol name =>
      cases hcode
      cases hrun
    | reg r =>
      obtain ⟨slot, -, hcode⟩ := bind_eq_ok.mp hcode
      cases hcode
      cases hrun
  | ret =>
    cases hcode
    cases hrun
  | _ =>
    cases hw
    exact hlevel rfl

/-- What is said of an operation's stack pointer and frame base is what its instructions do, unless an address leads
them to the frame base. -/
theorem run_stackStep {out : Option Nat} (h : actions frame folding b s op = .ok as)
    (hspares : Action.Spares 116 (none, m) as) (hrun : Action.run (none, m) as = .ok (out, m')) :
    StackStep frame op m.stackRegs m'.stackRegs := by
  have hexpands := expands_actions h
  have hstraight {is : List Instruction} (his : as = is.map .emit) : m.advanceAll is = .ok m' := by
    rw [his, Action.run_emit] at hrun
    cases hm : m.advanceAll is with
    | error e =>
      rw [hm] at hrun
      cases hrun
    | ok m1 =>
      rw [hm] at hrun
      cases hrun
      rfl
  refine ⟨fun w hw => ?_, fun hset => ?_, fun hset hdefs => ?_⟩
  · rcases expands_cases hexpands with ⟨is, hcode, his⟩ | ⟨hstay, hslots⟩
    · exact sp_of_code hcode (hstraight his) hw
    · cases (hstay _).symm.trans hw
      exact Action.run_sp (fun i hi => (hslots i hi).1) hrun
  · subst hset
    cases hexpands with
    | code hcode =>
      have hstep : StackStep frame .setFrameBase m.stackRegs m'.stackRegs :=
        (setFrameBase_stackStep hcode).of_ok (hstraight rfl)
      exact hstep.set rfl
  · have hclear (i : Instruction) (hi : .emit i ∈ as) (d : UInt8) (hd : i.destSlot? = some d) :=
      clear_of_writable (writable_emitted hexpands hi hd) hset hdefs
    exact (Action.run_word (by decide) hclear hspares hrun :)

end Expansion

end DirectPage
