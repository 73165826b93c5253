import DirectPage.Proofs.FrameInverse

/-! The instructions of a function of one block: prologue, operations, epilogue and return. -/
namespace DirectPage

open Expansion Machine

variable {s : Stream} {m m' : Machine} {α : Type} {P : α → Machine → Prop} {a : Option α} {x : Exit}

theorem Stream.Built.acts (h : Built s) {as : List Action} (ha : s.Admits as) : Built (s.acts as) := by
  induction as generalizing s with
  | nil => exact h
  | cons a as ih =>
    refine ih ?_ ha.tail
    cases a with
    | emit i => exact h.emit i
    | branch cond label => exact h.emitBranch cond label
    | newLabel => exact h.newLabel
    | define label => exact h.define label (List.getElem?_eq_some_iff.mp ha.1).1

def Stream.start (name : String) : Stream := (Stream.empty name 1 []).define 0

theorem Stream.built_start (name : String) : (start name).Built :=
  (Built.empty name 1 []).define 0 Nat.zero_lt_one

def Framed (frame : Frame) (name : String) (ops : List Pseudo) (t : Stream) : Prop :=
  ∃ folding rs as,
    blockActions frame folding 0 (.start name) (frame.prologue ++ ops ++ frame.epilogue ++ [Pseudo.ret rs]) =
      .ok as ∧ t = (Stream.start name).acts as

section Assemble

variable {ops : List Pseudo} {frame : Frame}

theorem insertBeforeReturn_ret (h : ∀ p ∈ ops, p.isReturn = false) (insts : List Pseudo) (rs : List Register) :
    insertBeforeReturn insts (ops ++ [Pseudo.ret rs]) = ops ++ insts ++ [Pseudo.ret rs] := by
  have hfind : (ops ++ [Pseudo.ret rs]).findIdx? Pseudo.isReturn = some ops.length := by
    rw [List.findIdx?_append, List.findIdx?_eq_none_iff.mpr h]
    simp [Pseudo.isReturn]
  rw [insertBeforeReturn, hfind]
  simp

variable {p : Pseudo} {rs : List Register}

private theorem frame_ops (h : p ∈ frame.prologue ∨ p ∈ frame.epilogue) : p.isReturn = false ∧ isLinear p = true := by
  simp only [Frame.prologue, Frame.epilogue, List.mem_append, List.mem_map, List.mem_ite_nil_right,
    List.mem_singleton] at h
  rcases h with (((⟨-, rfl⟩ | ⟨r, -, rfl⟩) | ⟨-, rfl⟩) | ⟨-, rfl⟩) |
    ((⟨-, rfl⟩ | ⟨-, rfl⟩) | ⟨r, -, rfl⟩) | ⟨-, rfl⟩ <;> exact ⟨rfl, rfl⟩

private theorem isReturn_of_isWordOp (h : p.isWordOp = true) : p.isReturn = false := by
  cases p with
  | ret => cases h
  | _ => rfl

private theorem isLinear_of_isWordOp (h : p.isWordOp = true) : isLinear p = true := by
  cases p with
  | brCc | jump => cases h
  | _ => rfl

/-- The blocks of an assigned function with its prologue and epilogue. -/
private theorem withFrame_blocks {f routine : Routine} (hf : f.blocks = [ops ++ [Pseudo.ret rs]])
    (hops : ∀ p ∈ ops, p.isReturn = false) (h : f.withFrame frame = .ok routine) :
    routine = { f with blocks := [frame.prologue ++ ops ++ frame.epilogue ++ [Pseudo.ret rs]] } := by
  obtain ⟨entry, hentry, h1⟩ := bind_eq_ok.mp h
  cases h1
  have hentry : entry = frame.prologue := by
    rw [Frame.entryCode] at hentry
    split at hentry
    · cases hentry
    · exact (Except.ok.inj hentry).symm
  have hall : ∀ p ∈ frame.prologue ++ ops, p.isReturn = false := by
    intro p hp
    rcases List.mem_append.mp hp with hp | hp
    · exact (frame_ops (.inl hp)).1
    · exact hops p hp
  simp only [hf, hentry, List.map_cons, List.map_nil, ← List.append_assoc, insertBeforeReturn_ret hall]

/-- From an assignment of registers to the stream that is encoded. -/
theorem assemble_framed {al : Allocation.Allocated} {ms : List Pseudo} {options : Options}
    {e : EncodedFunction} (hf : al.routine.Plain al.plan.objects ms rs) (hb : al.plan.needsFrameBase = false)
    (hc : al.plan.hasCalls = false) (ha : ∀ size align, .local size align ∈ al.plan.objects → 0 < align)
    (h : al.assemble options = .ok e) :
    ∃ frame t, frame.Simple al.plan.objects ∧ frame.saved = savedRegisters false al.assignment.calleeSaved ∧
      Framed frame al.routine.name (ms.map (·.mapRegs al.assignment.regMap.apply)) t ∧
      (if options.cleanup then t.clean else t).finish options.relaxing frame.stackSize = .ok e := by
  obtain ⟨assigned, hassign, h1⟩ := bind_eq_ok.mp h
  obtain ⟨frame, hframe, h2⟩ := bind_eq_ok.mp h1
  obtain ⟨routine, hroutine, h3⟩ := bind_eq_ok.mp h2
  obtain ⟨⟨_, removed⟩, hencoded, h4⟩ := bind_eq_ok.mp h3
  cases h4
  obtain ⟨t, hexpand, hfinish⟩ := assemble_eq_ok hencoded
  obtain ⟨hsimple, hsaved⟩ := finalize_simple hframe hb hc ha
  refine ⟨frame, t, hsimple, hsaved, ?_, hfinish⟩
  obtain rfl := Routine.assign_of_assignAll hassign
  have hops : ∀ p ∈ ms.map (·.mapRegs al.assignment.regMap.apply), p.isReturn = false := by
    intro p hp
    obtain ⟨m, hm, rfl⟩ := List.mem_map.mp hp
    exact isReturn_of_isWordOp (by rw [Pseudo.isWordOp_mapRegs, (hf.fits m hm).word])
  have hblocks : (al.routine.assign al.assignment.regMap).blocks =
      [ms.map (·.mapRegs al.assignment.regMap.apply) ++ [.ret rs]] := by
    simp only [Routine.assign, hf.blocks, List.map_cons, List.map_nil, List.map_append, Pseudo.mapRegs]
  rw [withFrame_blocks hblocks hops hroutine] at hexpand
  obtain ⟨t', hblock, h7⟩ := bind_eq_ok.mp hexpand
  cases h7
  replace hblock := foldlM_of_expandBlock hblock
  rw [foldlM_expandInst] at hblock
  have hstart : (Stream.empty al.routine.name 1 al.routine.pool).define 0 = .start al.routine.name := by
    rw [hf.pool]
    rfl
  change (Stream.acts ((Stream.empty al.routine.name 1 al.routine.pool).define 0)) <$> blockActions frame _ 0
    ((Stream.empty al.routine.name 1 al.routine.pool).define 0) _ = _ at hblock
  rw [hstart] at hblock
  refine ⟨options.folding, rs, ?_⟩
  generalize blockActions frame options.folding 0 (.start al.routine.name) _ = acts at hblock ⊢
  rcases acts with _ | as
  · cases hblock
  · exact ⟨as, rfl, (Except.ok.inj hblock).symm⟩

end Assemble

def divisionFault : Failure := .error (.internal (.simulator .divisionByZero))

/-- How a run ends that computes an optional value: it returns as `P` says, or divides by zero if there is none. -/
inductive Ends {α : Type} (P : α → Machine → Prop) : Option α → Exit → Machine → Prop
  | returned {a : α} {m : Machine} : P a m → Ends P (some a) .returned m
  | faulted {m : Machine} : Ends P none (.faulted divisionFault) m

theorem Ends.of_rel {β : Type} {Q : β → Machine → Prop} {R : β → α → Prop} {b : Option β} (h : Ends P a x m)
    (hr : Option.Rel R b a) (hq : ∀ b a, R b a → P a m → Q b m') : Ends Q b x m' := by
  cases h with
  | returned h =>
    cases hr with
    | some hr => exact .returned (hq _ _ hr h)
  | faulted =>
    cases hr
    exact .faulted

theorem Ends.mono {Q : α → Machine → Prop} (h : Ends P a x m) (hq : ∀ a, P a m → Q a m') : Ends Q a x m' := by
  cases h with
  | returned h => exact .returned (hq _ h)
  | faulted => exact .faulted

structure ReturnedFrom (m : Machine) (st : Store) (m' : Machine) : Prop where
  pc : m'.pc = m.memory.word (m.sp.toNat + 4)
  sp : m'.sp = m.sp + 4#32
  regs : ∀ n < 64, .general n ∉ calleeSaved → m'.regs (.general n) = st.regs (.general n)

/-- A return goes to the address above the stack pointer. -/
private theorem leads_rts (hw : s.WellFormed) (w : World) (hsp : m.sp.toNat + 8 ≤ memorySize) :
    (s.emit (.implied .rts)).Leads w (.running s.instructions.size m)
      (.ended .returned { m with sp := m.sp + 4#32, pc := m.memory.word (m.sp.toNat + 4) }) := by
  have hnext : (m.sp + 4#32).toNat = m.sp.toNat + 4 := by
    rw [BitVec.toNat_add, Nat.mod_eq_of_lt]
    · rfl
    · rw [memorySize] at hsp
      change m.sp.toNat + 4 < 4294967296
      omega
  have hexec : m.exec (.implied .rts) = .ok { m with sp := m.sp + 4#32, pc := m.memory.word (m.sp.toNat + 4) } := by
    change (m.readWord (m.sp + 4#32) >>= _) >>= _ = _
    rw [readWord_of_le m (by omega), hnext]
    rfl
  have hget : (s.emit (.implied .rts)).instructions[s.instructions.size]? = some (.implied .rts) :=
    Array.getElem?_push_size
  have hlookup : (s.emit (.implied .rts)).fixups.lookup s.instructions.size = none := by
    rw [Option.eq_none_iff_forall_ne_some]
    intro label hl
    rw [Stream.lookup_eq_some_iff (hw.emit _)] at hl
    exact absurd (hw.fixup_lt hl) (Nat.lt_irrefl _)
  refine .head ?_ (.refl _ _ _)
  simp only [Stream.step, hget, hlookup, World.perform, show (Instruction.implied .rts).flow = .ret from rfl, hexec]

private theorem general_of_calleeSaved {r : Register} (h : r ∈ calleeSaved) : ∃ n < 64, r = .general n := by
  obtain ⟨n, hn, rfl⟩ := List.mem_map.mp h
  refine ⟨n, ?_, rfl⟩
  simp only [List.mem_cons, List.not_mem_nil, or_false] at hn
  rcases hn with rfl | rfl | rfl | rfl | rfl | rfl | rfl | rfl | rfl | rfl <;> decide

namespace Framed

variable {frame : Frame} {name : String} {ops : List Pseudo} {t : Stream} (h : Framed frame name ops t)
  {objects : List FrameObject} (hops : ∀ p ∈ ops, Allocation.Placed objects p)

include hops in
private theorem linear (rs : List Register) :
    ∀ p ∈ frame.prologue ++ ops ++ frame.epilogue ++ [Pseudo.ret rs], isLinear p = true := by
  intro p hp
  simp only [List.mem_append, List.mem_singleton] at hp
  rcases hp with ((hp | hp) | hp) | rfl
  · exact (frame_ops (.inl hp)).2
  · exact isLinear_of_isWordOp (hops p hp).word
  · exact (frame_ops (.inr hp)).2
  · rfl

include h hops

/-- What cleanup and layout need of the stream. -/
theorem shape : t.Built ∧ t.Guarded ∧ t.Forward ∧ t.name = name ∧ t.pool = [] := by
  obtain ⟨folding, rs, as, has, rfl⟩ := h
  have hstart := Stream.built_start name
  have hadmits := admits_blockActions (linear hops rs) has
  refine ⟨hstart.acts hadmits, guarded_blockActions hstart.wellFormed.1 ?_ has,
    Stream.Forward.acts hstart.wellFormed.1 ?_ hadmits, Stream.acts_kept _ as⟩
  · intro i label cond offset hf
    cases hf
  · intro i label p hf
    cases hf

/-- A call of the function runs the operations on a store that holds its arguments. -/
theorem leads (hs : frame.Simple objects) {used : List Register}
    (hsaved : frame.saved = savedRegisters frame.frameBase used) (w : World) {m : Machine}
    (hroom : 256 + frame.stackSize + 4 * frame.saved.length ≤ m.sp.toNat) (hsp : m.sp.toNat + 8 ≤ memorySize)
    (hin : ∀ offset, .incoming offset wordSize ∈ objects →
      m.sp.toNat + incomingArgsOffset + offset + wordSize ≤ memorySize) :
    ∃ st : Store, (∀ n < 64, st.regs (.general n) = m.regs (.general n)) ∧
      (∀ (i : Nat) offset, objects[i]? = some (.incoming offset wordSize) →
        st.objects i = m.memory.word (m.sp.toNat + incomingArgsOffset + offset)) ∧
      ∃ x m', t.Leads w (.running 0 m) (.ended x m') ∧ Ends (ReturnedFrom m) (Pseudo.evalAll st ops) x m' := by
  obtain ⟨folding, rs, as, has, rfl⟩ := h
  have hstart := Stream.built_start name
  have hadmits := admits_blockActions (linear hops rs) has
  obtain ⟨front, last, hfront, hlast, rfl⟩ := blockActions_append_ok has
  obtain rfl : last = [.emit (.implied .rts)] := (Except.ok.inj hlast).symm
  obtain ⟨enterBody, leave, henterBody, hleave, rfl⟩ := blockActions_append_ok hfront
  obtain ⟨enter, body, henter, hbody, rfl⟩ := blockActions_append_ok henterBody
  cases (Frame.emits_prologue hsaved _ _ _).symm.trans henter
  cases (Frame.emits_epilogue hsaved _ _ _).symm.trans hleave
  have hfollows := Stream.follows_acts hstart.wellFormed.1 hadmits w (none, m)
  have hpushes : frame.pushes = frame.saved.length := by rw [Frame.pushes, hs.frameBase]; rfl
  have hargs : incomingArgsOffset = 8 := rfl
  have hword : wordSize = 4 := rfl
  have hbytes : wordSize * frame.pushes = 4 * frame.pushes := rfl
  have hfits : frame.HasRoom m := ⟨by omega, fun _ => by omega⟩
  obtain ⟨m1, hrun1, hopened⟩ := (Frame.opening_does hsaved hfits).runs
  have hsp1 := hopened.sp
  have hmem1 : ∀ a, a + 4 ≤ memorySize → a + 4 ≤ 256 ∨ m.sp.toNat + 4 ≤ a → m1.memory.word a = m.memory.word a :=
    fun a ha hout => Memory.word_congr fun c hc hlt => hopened.bytes c (by omega) (by omega) (by simp [hs.frameBase])
  have hhomes : Homes frame objects m1.sp (m1.sp.toNat + frame.stackSize) (frame.home m1.sp.toNat) := by
    refine hs.homes (by omega) (by omega) fun offset ho => ?_
    have := hin offset ho
    omega
  refine ⟨⟨m1.regs, fun i => m1.memory.word (frame.home m1.sp.toNat i)⟩, fun n hn => ?_, fun i offset hi => ?_, ?_⟩
  · have hn' : n.toNat < 64 := hn
    exact hmem1 _ (by rw [memorySize]; omega) (.inl (by omega))
  · have := hin offset (List.mem_of_getElem? hi)
    change m1.memory.word (frame.home _ i) = _
    have hsum : m1.sp.toNat + (frame.stackSize + wordSize * frame.pushes + incomingArgsOffset + offset) =
        m.sp.toNat + incomingArgsOffset + offset := by omega
    rw [(hs.home_incoming _ hi).2, hsum, hmem1 _ (by omega) (.inr (by omega))]
  · have hcomputes := blockActions_compute hhomes hops hbody
      (show Models _ _ _ ⟨m1.regs, fun i => m1.memory.word (frame.home m1.sp.toNat i)⟩ m1 from
        ⟨rfl, fun _ _ => rfl, fun _ _ _ _ => rfl⟩)
    rw [Action.run_append, Action.run_append, hrun1, ok_bind] at hfollows
    generalize Pseudo.evalAll _ ops = evaluated at hcomputes ⊢
    generalize Action.run (none, m1) body = ran at hcomputes hfollows
    cases hcomputes with
    | fault =>
      rcases hfollows with he | ⟨m', hm'⟩
      · cases he
      · exact ⟨_, m', hm', .faulted⟩
    | @ok st2 m2 hm2 =>
      obtain ⟨hmodels, hkeeps⟩ := hm2
      have hintact : frame.Intact m m1 m2 := by
        refine ⟨fun k hk => hkeeps _ (by omega) (by omega), ?_⟩
        rw [hs.frameBase]
        exact hmodels.sp
      obtain ⟨m3, hrun3, hclosed⟩ := (Frame.closing_does hsaved hfits hopened hintact).runs
      rw [ok_bind, hrun3] at hfollows
      -- the slots that were popped to are those of kept registers
      have hpopped {d : UInt8} (hd : d ∈ frame.pushedSlots) :
          ∃ k, Register.general k ∈ calleeSaved ∧ d.toNat = 4 * k.toNat := by
        obtain ⟨r, hr, hd⟩ := List.mem_filterMap.mp hd
        have hr := Frame.pushed_calleeSaved hsaved hr
        obtain ⟨k, hk, rfl⟩ := general_of_calleeSaved hr
        refine ⟨k, hr, ?_⟩
        rw [← Option.some.inj ((if_pos hk).symm.trans hd), UInt8.toNat_mul_four hk]
      have hword3 : m3.memory.word (m3.sp.toNat + 4) = m.memory.word (m.sp.toNat + 4) := by
        rw [hclosed.sp, ← hmem1 _ (by omega) (.inr (Nat.le_refl _)), ← hkeeps _ (by omega) (by omega)]
        refine Memory.word_congr fun c hc hlt => hclosed.bytes c (by omega) fun d _ => ?_
        have := d.toNat_lt
        omega
      refine ⟨.returned, { m3 with sp := m3.sp + 4#32, pc := m3.memory.word (m3.sp.toNat + 4) }, hfollows.trans ?_,
        .returned ⟨hword3, congrArg (· + 4#32) hclosed.sp, fun n hn hne => ?_⟩⟩
      · rw [Stream.acts_append]
        exact leads_rts (hstart.wellFormed.1.acts _) w (by rw [hclosed.sp]; exact hsp)
      · have hn' : n.toNat < 64 := hn
        rw [← hmodels.regs n hn]
        refine Memory.word_congr fun c hc hlt => hclosed.bytes c (by rw [memorySize]; omega) fun d hd => ?_
        obtain ⟨k, hk, hd⟩ := hpopped hd
        have : n.toNat ≠ k.toNat := fun he => hne (UInt8.toNat_inj.mp he ▸ hk)
        omega

end Framed

end DirectPage
