import DirectPage.Proofs.AccessCode
import DirectPage.Proofs.Activation

/-! Addresses along a run of pseudo-operations.

Beside the stack pointer and the frame base, a run here knows the addresses that operations leave in
registers. So it can be said which address a load or a store goes to, and the instructions of these
operations go to the same address. -/
namespace DirectPage

open Selection (BodyOp)

structure AddressRegs where
  stack : StackRegs
  regs : Reg → Word

namespace AddressRegs

def computed? (s : AddressRegs) (frame : Frame) : Pseudo → Option (Reg × Word)
  | .spAddr dst offset => some (dst, s.stack.sp + offset)
  | .frameAddr dst i offset => (frame.address? s.stack i offset).map (dst, ·)
  | _ => none

def behind? (s : AddressRegs) (frame : Frame) (base : MemBase) (offset : Word) : Option Word :=
  match base with
  | .reg r => some (s.regs r + offset)
  | .frame i => frame.address? s.stack i offset
  | .sp => some (s.stack.sp + offset)
  | .symbol _ => none

def accessed? (s : AddressRegs) (frame : Frame) : Pseudo → Option Word
  | .load _ _ _ base offset | .store _ _ base offset => s.behind? frame base offset
  | .fload _ _ (.reg r) | .fstore _ _ (.reg r) => some (s.regs r)
  | _ => none

end AddressRegs

structure AddressStep (frame : Frame) (m : Pseudo) (s t : AddressRegs) : Prop where
  stack : StackStep frame m s.stack t.stack
  computed : ∀ r a, s.computed? frame m = some (r, a) → t.regs r = a

inductive AddressRun (frame : Frame) : List Pseudo → AddressRegs → AddressRegs → Prop
  | nil {s : AddressRegs} : AddressRun frame [] s s
  | cons {m : Pseudo} {ms : List Pseudo} {s t u : AddressRegs} :
      AddressStep frame m s t → AddressRun frame ms t u → AddressRun frame (m :: ms) s u

def Meets (frame : Frame) (ms : List Pseudo) (s u : AddressRegs) (P : AddressRegs → Pseudo → Prop) : Prop :=
  ∃ ms1 m ms2 t, ms = ms1 ++ m :: ms2 ∧ AddressRun frame ms1 s t ∧ AddressRun frame (m :: ms2) t u ∧ P t m

section Runs

variable {frame : Frame} {ms ms' : List Pseudo} {s t u : AddressRegs} {P : AddressRegs → Pseudo → Prop}

theorem AddressStep.total (frame : Frame) (m : Pseudo) (s : AddressRegs) : ∃ t, AddressStep frame m s t := by
  obtain ⟨stack, hstack⟩ := StackStep.total frame m s.stack
  refine ⟨⟨stack, fun r => ((s.computed? frame m).map Prod.snd).getD (s.regs r)⟩, hstack, fun r a h => ?_⟩
  dsimp only
  rw [h]
  rfl

theorem AddressRun.total (frame : Frame) (ms : List Pseudo) (s : AddressRegs) : ∃ t, AddressRun frame ms s t := by
  induction ms generalizing s with
  | nil => exact ⟨s, .nil⟩
  | cons m ms ih =>
    obtain ⟨t, ht⟩ := AddressStep.total frame m s
    obtain ⟨u, hu⟩ := ih t
    exact ⟨u, .cons ht hu⟩

namespace AddressRun

theorem append (h : AddressRun frame ms s t) (h' : AddressRun frame ms' t u) : AddressRun frame (ms ++ ms') s u := by
  induction h with
  | nil => exact h'
  | cons hstep _ ih => exact .cons hstep (ih h')

theorem append_inv (h : AddressRun frame (ms ++ ms') s u) :
    ∃ t, AddressRun frame ms s t ∧ AddressRun frame ms' t u := by
  induction ms generalizing s with
  | nil => exact ⟨s, .nil, h⟩
  | cons m ms ih =>
    cases h with
    | cons hstep h =>
      obtain ⟨t, h1, h2⟩ := ih h
      exact ⟨t, .cons hstep h1, h2⟩

theorem stackRun (h : AddressRun frame ms s t) : StackRun frame ms s.stack t.stack := by
  induction h with
  | nil => exact .nil
  | cons hstep _ ih => exact .cons hstep.stack ih

end AddressRun

/-- What is met in a part of the operations is met on the way through all of them. -/
theorem Meets.within {before after : List Pseudo} {s' u' : AddressRegs} (h : Meets frame ms s u P)
    (hbefore : AddressRun frame before s' s) (hafter : AddressRun frame after u u') :
    Meets frame (before ++ ms ++ after) s' u' P := by
  obtain ⟨ms1, m, ms2, t, rfl, h1, h2, hp⟩ := h
  exact ⟨before ++ ms1, m, ms2 ++ after, t, by simp, hbefore.append h1, h2.append hafter, hp⟩

end Runs

def Pseudo.KeepsSp (m : Pseudo) : Prop := ∀ frame s, StackRegs.spAfter? s frame m = some s.sp

theorem StackRun.keepsSp {frame : Frame} {ms : List Pseudo} {s t : StackRegs} (hms : ∀ m ∈ ms, m.KeepsSp)
    (h : StackRun frame ms s t) : t.sp = s.sp := by
  induction h with
  | nil => rfl
  | cons hstep _ ih =>
    rw [ih fun m hm => hms m (List.mem_cons_of_mem _ hm)]
    exact hstep.sp _ (hms _ List.mem_cons_self _ _)

namespace Frame

variable {frame : Frame} {plan : FramePlan} {s t u : StackRegs} {i : Nat} {offset size : Nat}

/-- Whether a stack argument lies where an offset from the stack pointer can name it. -/
def Reaches (frame : Frame) (offset : Nat) : Prop :=
  frame.stackSize + wordSize * frame.pushes + incomingArgsOffset + offset < 2147483648

/-- What slots count from stays the same behind the prologue. -/
theorem slotBase_body {body : List Pseudo} (hframe : plan.finalize = .ok frame)
    (hbody : ∀ m ∈ body, BodyOp (· ≠ 0) frame.frameBase plan.hasVarSized m)
    (hentry : StackRun frame frame.prologue s t) (hrun : StackRun frame body t u) :
    u.slotBase? frame.base = some t.sp := by
  obtain ⟨hbase, hcall⟩ := finalize_flags hframe
  have hvar : plan.hasVarSized = true → frame.frameBase = true := by
    intro hv
    rw [hbase, FramePlan.needsFrameBase, hv]
    rfl
  obtain ⟨hkept, hsp⟩ := hrun.body hbody hcall hvar
  have hstart := slotBase_prologue hentry
  rw [base] at hstart ⊢
  cases hb : frame.frameBase with
  | false =>
    rw [← hsp hb]
    rfl
  | true =>
    rw [hb] at hstart
    rw [← hstart]
    exact congrArg some (hkept hb)

theorem offset_incoming (h : frame.Reaches offset) : frame.offset (.incoming offset) =
    .ok (frame.stackSize + wordSize * frame.pushes + incomingArgsOffset + offset) := by
  rw [Reaches] at h
  rw [Frame.offset, unsigned32_of_lt (by omega), ok_bind]
  exact unsigned32_of_lt (by omega)

/-- A stack argument lies at the same distance from where the stack pointer stood at entry in every frame. -/
theorem address_argument (hframe : plan.finalize = .ok frame) (hi : plan.objects[i]? = some (.incoming offset size))
    (hreach : frame.Reaches offset) (hentry : StackRun frame frame.prologue s t)
    (hbase : u.slotBase? frame.base = some t.sp) :
    frame.address? u i 0#32 = some (s.sp + BitVec.ofNat 32 (incomingArgsOffset + offset)) := by
  rw [← sp_add_entry hentry, ← Nat.add_assoc]
  exact address?_of_base hbase (FramePlan.finalize_callerPlace hframe hi rfl) (offset_incoming hreach) hreach

theorem resolve_out_of_reach (hframe : plan.finalize = .ok frame)
    (hi : plan.objects[i]? = some (.incoming offset size)) (hreach : ¬frame.Reaches offset) (extra : Word) :
    ∃ e, frame.resolve i extra = .error e := by
  cases hr : frame.resolve i extra with
  | error e => exact ⟨e, rfl⟩
  | ok r =>
    obtain ⟨place, total, hplace, htotal, hlt⟩ := offset_of_resolve hr
    obtain rfl := Option.some.inj ((FramePlan.finalize_callerPlace hframe hi rfl).symm.trans hplace)
    obtain ⟨top, htop, htotal⟩ := bind_eq_ok.mp htotal
    obtain rfl := unsigned32_eq_ok htop
    obtain rfl := unsigned32_eq_ok htotal
    exact absurd hlt hreach

end Frame

def Machine.addressRegs (m : Machine) : AddressRegs := ⟨m.stackRegs, m.regs⟩

namespace Expansion

open Machine

variable {m : Machine} {frame : Frame} {is : List Instruction} {p : Place} {a : Word} {l d : UInt8}

variable {base : MemBase} {offset : Word}

theorem target_of_behind (h : m.addressRegs.behind? frame base offset = some a) :
    target? m frame base offset = some a := by
  cases base with
  | symbol s => cases h
  | _ => exact h

/-- An address is computed in the accumulator and then kept in a register. -/
theorem addressOf_does {js : List Instruction} (hd : d < 64)
    (h : m.Does js fun m1 => m1.a = a ∧ m1.memory = m.memory ∧ m.Rest m1) :
    m.Does (js ++ [sta (d * 4)]) (m.Sets (4 * d.toNat) a) :=
  h.append fun _ ⟨hw, hm, hrest⟩ => sta_does hd hw hm hrest.sp

variable {s : Stream} {op : Pseudo}

theorem load_accesses {ext : Ir.Extension} (hd : d < 64) (hregs : ∀ r ∈ base.regs, ∃ n < 64, r = .general n)
    (h : code s frame (.load (.general d) .word ext base offset) = .ok is)
    (ha : m.addressRegs.accessed? frame (.load (.general d) .word ext base offset) = some a)
    (hle : a.toNat + 4 ≤ memorySize) (hfree : a.toNat + 4 ≤ 124 ∨ 128 ≤ a.toNat) :
    m.Does is fun m' => m'.regs (.general d) = m.memory.word a.toNat ∧ m'.sp = m.sp := by
  change load frame (.general d) .word ext base offset = .ok is at h
  refine (load_reads hd hregs h (target_of_behind ha) hle hfree).mono fun m' hm' => ⟨?_, hm'.alters.rest.sp⟩
  rw [hm'.value, ext.eval_word]
  exact Memory.ofNat_number_word _ _

theorem store_accesses (hl : l < 64) (hne : l ≠ 31) (hregs : ∀ r ∈ base.regs, ∃ n < 64, r = .general n)
    (h : code s frame (.store (.general l) .word base offset) = .ok is)
    (ha : m.addressRegs.accessed? frame (.store (.general l) .word base offset) = some a)
    (hsp : m.sp.toNat + 4 ≤ memorySize) (hle : a.toNat + 4 ≤ memorySize) :
    m.Does is fun m' => m'.memory.word a.toNat = m.regs (.general l) ∧ m'.sp = m.sp := by
  change store frame (.general l) .word base offset = .ok is at h
  exact (store_fills hl hne hregs h (target_of_behind ha) hsp hle).mono fun _ hm' => ⟨hm'.word, hm'.alters.rest.sp⟩

theorem floatMem_accesses {op : FloatMemOp} {k n : UInt8} {prec : Precision}
    (h : floatMem op (.phys (.float k)) prec (.reg (.general n)) = .ok is) :
    m.advanceAll is = m.floatMem op prec k (m.regs (.general n)) := by
  obtain ⟨k', hk, h⟩ := bind_eq_ok.mp h
  obtain ⟨n', hn, h⟩ := bind_eq_ok.mp h
  cases h
  obtain rfl : k = k' := by
    change (if k < 16 then Except.ok k else _) = Except.ok k' at hk
    split at hk
    · exact Except.ok.inj hk
    · cases hk
  obtain rfl : n = n' := by
    change (if n < 16 then Except.ok n else _) = Except.ok n' at hn
    split at hn
    · exact Except.ok.inj hn
    · cases hn
  rw [advanceAll_cons]
  change (m.floatMem op prec k (m.gpr n) >>= fun m1 => .ok m1) = _
  rw [gpr_eq]
  exact bind_pure _

private theorem addressStep_of_sets {m' : Machine} (hne : op ≠ .setFrameBase) (hdefs : op.defs = [.general d])
    (hsp : ∀ s : StackRegs, s.spAfter? frame op = some s.sp)
    (ha : m.addressRegs.computed? frame op = some (.general d, a)) (hset : m.Sets (4 * d.toNat) a m') :
    AddressStep frame op m.addressRegs m'.addressRegs := by
  refine ⟨⟨fun w hw => ?_, fun he => absurd he hne, fun _ hbase => ?_⟩, fun r b hb => ?_⟩
  · rw [hsp] at hw
    exact hset.sp.trans (Option.some.inj hw)
  · have hd : d.toNat ≠ 29 := by
      intro he
      rw [hdefs, show d = 29 from UInt8.toNat_inj.mp he] at hbase
      exact hbase List.mem_cons_self
    exact hset.others (4 * 29) (by decide) (by omega)
  · rw [ha] at hb
    cases hb
    exact hset.value

/-- Addresses are left in their registers. -/
theorem does_addressStep (hd : d < 64) (ha : m.addressRegs.computed? frame op = some (.general d, a))
    (h : code s frame op = .ok is) : m.Does is fun m' => AddressStep frame op m.addressRegs m'.addressRegs := by
  cases op with
  | spAddr dst offset =>
    cases ha
    obtain ⟨_, hslot, h⟩ := bind_eq_ok.mp h
    rw [Reg.slot_general hd] at hslot
    cases hslot
    cases h
    refine (addressOf_does hd (stackPlus_does m offset)).mono fun m' hset => ?_
    exact addressStep_of_sets (by simp) rfl (fun _ => rfl) rfl hset
  | frameAddr dst i offset =>
    obtain ⟨b, hb, hpair⟩ := Option.map_eq_some_iff.mp ha
    cases hpair
    obtain ⟨_, hslot, h⟩ := bind_eq_ok.mp h
    rw [Reg.slot_general hd] at hslot
    cases hslot
    obtain ⟨⟨base, total⟩, hr, h⟩ := bind_eq_ok.mp h
    have hbase := Frame.resolve_base hr
    rw [Frame.address?, hr] at hb
    refine Does.mono ?_ fun m' hset => addressStep_of_sets (by simp) rfl (fun _ => rfl) ha hset
    rw [Frame.base] at hbase
    split at hbase
    · subst hbase
      cases h
      cases hb
      exact addressOf_does hd (slotPlus_does m _ total)
    · subst hbase
      cases h
      cases hb
      exact addressOf_does hd (stackPlus_does m total)
  | _ => cases ha

end Expansion

end DirectPage
