import DirectPage.Proofs.SavedRegisters

/-! What closes a frame undoes what opened it.

The opening instructions push words below where the stack pointer stands and move it down. Whatever happens then, as
long as those words stay and so does what the frame counts from, the closing instructions lead back to the stack
pointer at entry and to the pushed registers as they were. -/
namespace DirectPage

open Expansion Machine

structure Slots (ds : List UInt8) : Prop where
  nodup : ds.Nodup
  aligned : ∀ d ∈ ds, d.toNat % 4 = 0

namespace Slots

variable {ds : List UInt8} {d : UInt8}

theorem lt (h : Slots ds) (hd : d ∈ ds) : d.toNat + 4 ≤ 256 := by
  have := h.aligned d hd
  have := d.toNat_lt
  omega

theorem tail (h : Slots (d :: ds)) : Slots ds :=
  ⟨(List.nodup_cons.mp h.nodup).2, fun e he => h.aligned e (List.mem_cons_of_mem _ he)⟩

/-- The first slot lies apart from the others. -/
theorem apart (h : Slots (d :: ds)) : ∀ e ∈ ds, d.toNat + 4 ≤ e.toNat ∨ e.toNat + 4 ≤ d.toNat := by
  intro e he
  have hne : d.toNat ≠ e.toNat := fun heq => (List.nodup_cons.mp h.nodup).1 (UInt8.toNat_inj.mp heq ▸ he)
  have := h.aligned d List.mem_cons_self
  have := h.aligned e (List.mem_cons_of_mem _ he)
  omega

theorem reverse (h : Slots ds) : Slots ds.reverse :=
  ⟨List.nodup_reverse.mpr h.nodup, fun e he => h.aligned e (List.mem_reverse.mp he)⟩

end Slots

section Runs

variable {m : Machine} {ds : List UInt8}

structure Machine.Pushed (ds : List UInt8) (m m' : Machine) : Prop where
  sp : m'.sp.toNat + 4 * ds.length = m.sp.toNat
  words : ∀ k d, ds[k]? = some d → m'.memory.word (m.sp.toNat - 4 * k) = m.memory.word d.toNat
  bytes : ∀ a < memorySize, a + 4 * ds.length < m.sp.toNat + 4 ∨ m.sp.toNat + 4 ≤ a → m'.memory.get a = m.memory.get a

theorem pushCode_does (hds : Slots ds) (hroom : 256 + 4 * ds.length ≤ m.sp.toNat + 4)
    (hmem : 0 < ds.length → m.sp.toNat + 4 ≤ memorySize) : m.Does (pushCode ds) (m.Pushed ds) := by
  induction ds generalizing m with
  | nil => exact .nil ⟨rfl, by simp, fun _ _ _ => rfl⟩
  | cons d ds ih =>
    rw [List.length_cons] at hroom hmem
    have hmem := hmem (Nat.succ_pos _)
    -- The first word is pushed, and the others go below it.
    refine (push_slot d hmem (by omega)).append fun m1 h1 => ?_
    obtain ⟨hsp1, hm1⟩ := h1
    refine (ih hds.tail (by omega) (by omega)).mono fun m2 h2 => ?_
    have hsp2 := h2.sp
    refine ⟨by rw [List.length_cons]; omega, fun k e hk => ?_, fun a ha hout => ?_⟩
    · cases k with
      | zero =>
        cases hk
        have hkept : m2.memory.word m.sp.toNat = m1.memory.word m.sp.toNat :=
          Memory.word_congr fun b hb hlt => h2.bytes b (by omega) (by omega)
        rw [Nat.mul_zero, Nat.sub_zero, hkept, hm1, Memory.word_setWord_self hmem]
      | succ k =>
        have he := hds.tail.lt (List.mem_of_getElem? hk)
        rw [show m.sp.toNat - 4 * (k + 1) = m1.sp.toNat - 4 * k by omega, h2.words k e hk, hm1,
          Memory.word_setWord_ne hmem (by rw [memorySize]; omega) (by omega)]
    · rw [List.length_cons] at hout
      rw [h2.bytes a ha (by omega), hm1, Memory.get_setWord_ne hmem ha (by omega)]

structure Machine.Popped (ds : List UInt8) (m m' : Machine) : Prop where
  sp : m'.sp.toNat = m.sp.toNat + 4 * ds.length
  words : ∀ k d, ds[k]? = some d → m'.memory.word d.toNat = m.memory.word (m.sp.toNat + 4 * (k + 1))
  bytes : ∀ a < memorySize, (∀ d ∈ ds, a < d.toNat ∨ d.toNat + 4 ≤ a) → m'.memory.get a = m.memory.get a

theorem popCode_does (hds : Slots ds) (hpage : 256 ≤ m.sp.toNat + 4)
    (hmem : 0 < ds.length → m.sp.toNat + 4 * ds.length + 4 ≤ memorySize) : m.Does (popCode ds) (m.Popped ds) := by
  induction ds generalizing m with
  | nil => exact .nil ⟨rfl, by simp, fun _ _ _ => rfl⟩
  | cons d ds ih =>
    rw [List.length_cons] at hmem
    have hmem := hmem (Nat.succ_pos _)
    have hd := hds.lt List.mem_cons_self
    have hin : d.toNat + 4 ≤ memorySize := by rw [memorySize]; omega
    -- The words still to be popped lie above the direct page.
    refine (pop_slot d (by omega)).append fun m1 h1 => ?_
    obtain ⟨hsp1, hm1⟩ := h1
    refine (ih hds.tail (by omega) (by omega)).mono fun m2 h2 => ?_
    have hsp2 := h2.sp
    refine ⟨by rw [List.length_cons]; omega, fun k e hk => ?_, fun a ha hout => ?_⟩
    · cases k with
      | zero =>
        cases hk
        have hkept : m2.memory.word d.toNat = m1.memory.word d.toNat :=
          Memory.word_congr fun b hb hlt => h2.bytes b (by omega) fun e he => by
            have := hds.apart e he
            omega
        rw [hkept, hm1, Memory.word_setWord_self hin]
      | succ k =>
        have hlt : k < ds.length := (List.getElem?_eq_some_iff.mp (show ds[k]? = some e from hk)).1
        rw [h2.words k e hk, hm1, Memory.word_setWord_ne hin (by omega) (by omega), hsp1]
        congr 1
        omega
    · obtain ⟨hfirst, hrest⟩ := List.forall_mem_cons.mp hout
      rw [h2.bytes a ha hrest, hm1, Memory.get_setWord_ne hin ha hfirst]

end Runs

namespace Frame

/-- The stack has room for a frame: it does not reach down to the direct page, and the words that are pushed are in
memory. -/
structure HasRoom (frame : Frame) (m : Machine) : Prop where
  page : 256 + 4 * frame.pushes + frame.stackSize ≤ m.sp.toNat + 4
  memory : 0 < frame.pushes → m.sp.toNat + 4 ≤ memorySize

/-- A frame was opened: beside the pushed words nothing was written but the frame base. -/
structure Opened (frame : Frame) (m m' : Machine) : Prop where
  sp : m'.sp.toNat + 4 * frame.pushes + frame.stackSize = m.sp.toNat
  base : frame.frameBase = true → m'.gpr 29 = m'.sp
  words : ∀ k d, frame.pushedSlots[k]? = some d → m'.memory.word (m.sp.toNat - 4 * k) = m.memory.word d.toNat
  bytes : ∀ a < memorySize, a + 4 * frame.pushes < m.sp.toNat + 4 ∨ m.sp.toNat + 4 ≤ a →
    (frame.frameBase = true → a < 116 ∨ 120 ≤ a) → m'.memory.get a = m.memory.get a

/-- A frame that was opened between the first two machines can still be closed in the third: the pushed words are
there, and so is what the frame counts from. -/
structure Intact (frame : Frame) (m opened m' : Machine) : Prop where
  words : ∀ k < frame.pushes, m'.memory.word (m.sp.toNat - 4 * k) = opened.memory.word (m.sp.toNat - 4 * k)
  base : if frame.frameBase then m'.gpr 29 = opened.gpr 29 else m'.sp = opened.sp

/-- A frame that was opened at the first machine was closed between the other two: the stack pointer and the pushed
registers are as at entry, and all else is as it was before closing. -/
structure Closed (frame : Frame) (m before m' : Machine) : Prop where
  sp : m'.sp = m.sp
  registers : ∀ n, .general n ∈ frame.pushed → m'.gpr n = m.gpr n
  bytes : ∀ a < memorySize, (∀ d ∈ frame.pushedSlots, a < d.toNat ∨ d.toNat + 4 ≤ a) →
    m'.memory.get a = before.memory.get a

section Slots

variable {frame : Frame} {used : List Register} (h : frame.saved = savedRegisters frame.frameBase used)
include h

theorem length_pushedSlots : frame.pushedSlots.length = frame.pushes := by
  rw [pushedSlots, List.length_filterMap_eq_countP, ← length_pushed]
  exact List.countP_eq_length.mpr fun r hr => slot?_isSome_of_pushed h hr

theorem slots_pushedSlots : DirectPage.Slots frame.pushedSlots := by
  refine ⟨nodup_pushedSlots h, fun d hd => ?_⟩
  obtain ⟨r, -, hr⟩ := List.mem_filterMap.mp hd
  cases r with
  | general n =>
    obtain ⟨hn, hr⟩ := Option.ite_none_right_eq_some.mp hr
    rw [← Option.some.inj hr, UInt8.toNat_mul_four hn, Nat.mul_mod_right]
  | _ => cases hr

end Slots

section Runs

variable {frame : Frame} {used : List Register} (hsaved : frame.saved = savedRegisters frame.frameBase used)
  {m m1 m2 : Machine}

include hsaved in
theorem opening_does (hroom : frame.HasRoom m) : m.Does frame.opening (frame.Opened m) := by
  obtain ⟨hpage, hmem⟩ := hroom
  have hlen := length_pushedSlots hsaved
  have hdown : m.Does (pushCode frame.pushedSlots ++ spAdjust (-BitVec.ofNat 32 frame.stackSize)) fun m2 =>
      m2.sp.toNat + 4 * frame.pushes + frame.stackSize = m.sp.toNat ∧
        ∃ m1, m.Pushed frame.pushedSlots m1 ∧ m2.memory = m1.memory := by
    refine (pushCode_does (slots_pushedSlots hsaved) (by omega) (by omega)).append fun m1 h1 => ?_
    refine (spAdjust_does _ m1).mono fun m2 ⟨hm2, hsp2⟩ => ⟨?_, m1, h1, hm2⟩
    have hsp1 := h1.sp
    rw [hsp2, ← BitVec.sub_eq_add_neg, Word.toNat_sub_ofNat (by omega)]
    omega
  refine hdown.append fun m2 ⟨hsp2, m1, h1, hm2⟩ => ?_
  cases hbase : frame.frameBase with
  | false =>
    refine .nil ⟨hsp2, fun hb => ?_, fun k d hk => hm2 ▸ h1.words k d hk, fun a ha hout _ => ?_⟩
    · rw [hbase] at hb
      cases hb
    · rw [hm2, h1.bytes a ha (by omega)]
  | true =>
    -- The last word written is the frame base, in a slot of the direct page.
    have hslot : frameBaseSlot.toNat = 116 := rfl
    refine .cons rfl (.cons (advance_stx _ _) (.nil ⟨hsp2, fun _ => ?_, fun k d hk => ?_, fun a ha hout hne => ?_⟩))
    · rw [gpr_eq]
      exact Memory.word_setWord_self (by decide) _
    · have hlt := (List.getElem?_eq_some_iff.mp hk).1
      have := hmem (by omega)
      rw [← h1.words k d hk, ← hm2]
      exact Memory.word_setWord_ne (by decide) (by omega) (by rw [hslot]; omega) _
    · rw [← h1.bytes a ha (by omega), ← hm2]
      exact Memory.get_setWord_ne (by decide) ha (hne hbase) _

/-- What the frame counts from goes back to the stack pointer. -/
theorem restore_does (h : frame.Opened m m1) (hm : frame.Intact m m1 m2) :
    m2.Does (if frame.frameBase then [.direct .ldxDp frameBaseSlot, .implied .txs] else []) fun m' =>
      m'.sp = m1.sp ∧ m'.memory = m2.memory := by
  have hkept := hm.base
  cases hbase : frame.frameBase with
  | false =>
    rw [hbase] at hkept
    exact .nil ⟨hkept, rfl⟩
  | true =>
    rw [hbase, if_pos rfl, h.base hbase, gpr_eq] at hkept
    exact .cons (advance_ldx _ _) (.cons rfl (.nil ⟨hkept, rfl⟩))

include hsaved in
theorem closing_does (hroom : frame.HasRoom m) (h : frame.Opened m m1) (hm : frame.Intact m m1 m2) :
    m2.Does frame.closing (frame.Closed m m2) := by
  obtain ⟨hpage, hmem⟩ := hroom
  have hlen := length_pushedSlots hsaved
  have hsp := h.sp
  have hup : m2.Does ((if frame.frameBase then [Instruction.direct .ldxDp frameBaseSlot, .implied .txs] else []) ++
      spAdjust (BitVec.ofNat 32 frame.stackSize)) fun m' =>
        m'.sp.toNat + 4 * frame.pushes = m.sp.toNat ∧ m'.memory = m2.memory := by
    refine (restore_does h hm).append fun m' ⟨hsp', hm'⟩ => ?_
    refine (spAdjust_does _ m').mono fun m'' ⟨hm'', hsp''⟩ => ⟨?_, hm''.trans hm'⟩
    have hlt := m.sp.isLt
    rw [hsp'', hsp', BitVec.toNat_add, BitVec.toNat_ofNat, Nat.mod_eq_of_lt (a := frame.stackSize) (by omega),
      Nat.mod_eq_of_lt (by omega)]
    omega
  refine hup.append fun m' ⟨hsp', hm'⟩ => ?_
  have hlen' : frame.pushedSlots.reverse.length = frame.pushes := by rw [List.length_reverse, hlen]
  refine (popCode_does (slots_pushedSlots hsaved).reverse (by omega) (by omega)).mono fun m3 h3 => ?_
  have hsp3 := h3.sp
  refine ⟨BitVec.eq_of_toNat_eq (by omega), fun n hn => ?_, fun a ha hout => ?_⟩
  · obtain ⟨d, hd⟩ := Option.isSome_iff_exists.mp (slot?_isSome_of_pushed hsaved hn)
    have hmem : d ∈ frame.pushedSlots := List.mem_filterMap.mpr ⟨_, hn, hd⟩
    obtain ⟨j, hj⟩ := List.mem_iff_getElem?.mp hmem
    have hlt := (List.getElem?_eq_some_iff.mp hj).1
    have hback : frame.pushedSlots.reverse[frame.pushes - 1 - j]? = some d := by
      rw [List.getElem?_reverse (by omega), hlen, show frame.pushes - 1 - (frame.pushes - 1 - j) = j by omega, hj]
    have hnum : d.toNat = 4 * n.toNat := by
      obtain ⟨hlt, hd⟩ := Option.ite_none_right_eq_some.mp hd
      rw [← Option.some.inj hd, UInt8.toNat_mul_four hlt]
    -- The word is popped from where it was pushed to.
    have hplace : m'.sp.toNat + 4 * (frame.pushes - 1 - j + 1) = m.sp.toNat - 4 * j := by omega
    rw [gpr_eq, gpr_eq, ← hnum, h3.words _ d hback, hplace, hm', hm.words j (by omega), h.words j d hj]
  · rw [h3.bytes a ha fun d hd => hout d (List.mem_reverse.mp hd), hm']

end Runs

end Frame

section Expand

variable {frame : Frame} {folding : Bool} {b : Nat} {used : List Register}
  (hsaved : frame.saved = savedRegisters frame.frameBase used)
include hsaved

theorem prologue_expands (s : Stream) :
    frame.prologue.foldlM (expandInst frame folding b) s = .ok (s.emitAll frame.opening) :=
  (Frame.emits_prologue hsaved).expands folding b s

theorem epilogue_expands (s : Stream) :
    frame.epilogue.foldlM (expandInst frame folding b) s = .ok (s.emitAll frame.closing) :=
  (Frame.emits_epilogue hsaved).expands folding b s

end Expand

theorem Frame.Closed.placed {frame : Frame} {m before m' : Machine} (h : frame.Closed m before m') (pc : Word)
    (code : AddressMap (Option Instruction) 32) : frame.Closed m before (m'.placed pc code) :=
  ⟨h.sp, fun n hn => by rw [← h.registers n hn, gpr_eq, gpr_eq]; rfl, h.bytes⟩

theorem Frame.Opened.placed {frame : Frame} {m m' : Machine} (h : frame.Opened m m') (pc : Word)
    (code : AddressMap (Option Instruction) 32) : frame.Opened m (m'.placed pc code) :=
  ⟨h.sp, fun hbase => by rw [placed_sp, ← h.base hbase, gpr_eq, gpr_eq]; rfl, h.words, h.bytes⟩

/-- A resolved frame is opened and closed by code that does not depend on where it stands. The opening code moves the
stack pointer down and writes only the words it pushes and the frame base. Whatever the machine became meanwhile, if
the frame is intact, then the closing code gives back the stack pointer and the pushed registers and changes nothing
else. -/
theorem FramePlan.finalize_opened_closed {plan : FramePlan} {frame : Frame} (h : plan.finalize = .ok frame)
    (hsize : frame.stackSize < 2147483648) :
    (∀ folding b s, (do (← frame.entryCode).foldlM (expandInst frame folding b) s) = .ok (s.emitAll frame.opening)) ∧
    (∀ folding b s, frame.epilogue.foldlM (expandInst frame folding b) s = .ok (s.emitAll frame.closing)) ∧
    ∀ m : Machine, m.Holds frame.opening → frame.HasRoom m →
      ∃ opened, m.steps frame.opening.length = .ok opened ∧ frame.Opened m opened ∧
        ∀ before : Machine, before.Holds frame.closing → frame.Intact m opened before →
          ∃ m', before.steps frame.closing.length = .ok m' ∧ frame.Closed m before m' := by
  have hsaved := finalize_saved h
  refine ⟨fun folding b s => ?_, fun folding b s => epilogue_expands hsaved s, fun m hm hroom => ?_⟩
  · rw [Frame.entryCode, if_neg (by omega), ok_bind, prologue_expands hsaved]
  obtain ⟨opened, hrun, hopened⟩ := Frame.opening_does hsaved hroom
  have hopened := hopened.placed (m.pc + BitVec.ofNat 32 (encodeAll frame.opening).length) m.code
  refine ⟨_, steps_ok hm hrun, hopened, fun before hbefore hintact => ?_⟩
  obtain ⟨m', hrun', hclosed⟩ := Frame.closing_does hsaved hroom hopened hintact
  exact ⟨_, steps_ok hbefore hrun', hclosed.placed _ _⟩

section VarSized

def varSizedPlan : FramePlan := { hasVarSized := true, calleeSaved := [.general 16] }

def varSizedFrame : Frame :=
  { callFrameSize := 4, stackSize := 4, frameBase := true, reservedCallFrame := false, saved := [.general 16] }

def varSizedMachine : Machine where
  memory := Memory.setWord (.uniform 0) 64 5#32
  code := placeCode (placeCode (.uniform none) 0 varSizedFrame.opening) 256 varSizedFrame.closing

def varSizedBody (m : Machine) : Machine :=
  { m with memory := m.memory.setWord 64 9#32, sp := m.sp - 48#32, pc := 256#32, code := varSizedMachine.code }

theorem finalize_opened_closed_varSized :
    varSizedPlan.finalize = .ok varSizedFrame ∧ varSizedFrame.stackSize < 2147483648 ∧
    varSizedMachine.Holds varSizedFrame.opening ∧ varSizedFrame.HasRoom varSizedMachine ∧
    ∃ opened m', varSizedMachine.steps varSizedFrame.opening.length = .ok opened ∧
      (varSizedBody opened).Holds varSizedFrame.closing ∧
      varSizedFrame.Intact varSizedMachine opened (varSizedBody opened) ∧
      (varSizedBody opened).steps varSizedFrame.closing.length = .ok m' ∧ m'.sp = stackTop ∧ m'.gpr 16 = 5#32 := by
  have hfinal : varSizedPlan.finalize = .ok varSizedFrame := by decide +kernel
  have hholds : varSizedMachine.Holds varSizedFrame.opening := by decide +kernel
  have hroom : varSizedFrame.HasRoom varSizedMachine := ⟨by decide, by decide⟩
  obtain ⟨-, -, hopen⟩ := FramePlan.finalize_opened_closed hfinal (by decide)
  obtain ⟨opened, hsteps, -, hclose⟩ := hopen varSizedMachine hholds hroom
  have hbody : (varSizedBody opened).Holds varSizedFrame.closing := by
    have hcode : HoldsFrom varSizedMachine.code 256#32 varSizedFrame.closing := by decide +kernel
    exact hcode
  have hintact : varSizedFrame.Intact varSizedMachine opened (varSizedBody opened) := by
    refine ⟨fun k hk => ?_, ?_⟩
    · have hk : k < 2 := hk
      have hsp : varSizedMachine.sp.toNat = 983040 := rfl
      exact Memory.word_setWord_ne (by decide) (by rw [hsp, memorySize]; omega) (by rw [hsp]; omega) _
    · change (varSizedBody opened).gpr 29 = opened.gpr 29
      rw [gpr_eq, gpr_eq]
      exact Memory.word_setWord_ne (by decide) (by decide) (by decide) _
  obtain ⟨m', hsteps', hclosed⟩ := hclose _ hbody hintact
  have hregister : m'.gpr 16 = varSizedMachine.gpr 16 := hclosed.registers 16 (by decide)
  exact ⟨hfinal, by decide, hholds, hroom, opened, m', hsteps, hbody, hintact, hsteps', hclosed.sp,
    hregister.trans (by decide +kernel)⟩

end VarSized

end DirectPage
