import DirectPage.Proofs.StackDepth

/-! Addresses of frame objects.

A frame is built step by step and then laid out. Behind the prologue its local objects lie apart from
each other, from the arguments of calls below them and from the pushed registers above them, and what
the caller left is found at fixed distances from where the stack pointer stood at entry. -/
namespace DirectPage

namespace FramePlan

/-- The frame and the stack arguments that it knows of take less than half of the address space. -/
structure Fits (p : FramePlan) : Prop where
  entry : p.entryBytes + incomingArgsOffset < 2147483648
  incoming : ∀ offset size, .incoming offset size ∈ p.objects →
    p.entryBytes + incomingArgsOffset + offset < 2147483648

end FramePlan

def FrameObject.callerPlace? : FrameObject → Option FramePlace
  | .local _ _ => none
  | .incoming offset _ => some (.incoming offset)
  | .returnAddress => some .returnAddress

theorem FramePlan.exactPlaces_caller {objects : List FrameObject} {i : Nat} {o : FrameObject} {place : FramePlace}
    (hi : objects[i]? = some o) (hplace : o.callerPlace? = some place) (top : Nat) :
    (exactPlaces top objects)[i]? = some place := by
  induction objects generalizing i top with
  | nil => cases hi
  | cons o' rest ih =>
    cases i with
    | zero =>
      cases hi
      cases o <;> cases hplace <;> rfl
    | succ i => cases o' <;> exact ih hi _

structure Frame.LaidFrom (frame : Frame) (p : FramePlan) : Prop where
  laid : ∃ stop, Laid 0 p.objects frame.places stop ∧ frame.callFrameSize + stop ≤ frame.stackSize
  returnAddress : ∀ i : Nat, p.objects[i]? = some .returnAddress → frame.places[i]? = some .returnAddress
  callFrameSize : frame.callFrameSize = p.callBytes
  entryBytes : frame.stackSize + wordSize * frame.pushes = p.entryBytes
  reserved : frame.reservedCallFrame = !p.hasVarSized

namespace FramePlan

variable {p : FramePlan} {frame : Frame}

theorem finalize_laidFrom (ha : ∀ size align, .local size align ∈ p.objects → 0 < align)
    (h : p.finalize = .ok frame) : frame.LaidFrom p := by
  obtain rfl := finalize_eq_ok h
  exact ⟨⟨_, laid_exactPlaces ha 0, p.le_stackBytes⟩, fun i hi => exactPlaces_caller hi rfl 0, rfl, rfl, rfl⟩

theorem finalize_callerPlace (h : p.finalize = .ok frame) {i : Nat} {o : FrameObject} {place : FramePlace}
    (hi : p.objects[i]? = some o) (hplace : o.callerPlace? = some place) : frame.places[i]? = some place := by
  obtain rfl := finalize_eq_ok h
  exact exactPlaces_caller hi hplace 0

theorem finalize_ok (hp : p.Sound) (hf : p.Fits) : ∃ frame, p.finalize = .ok frame := by
  have hentry := hf.entry
  rw [entryBytes] at hentry
  exact ⟨_, by rw [finalize_eq hp.aligned, if_pos (by omega)]⟩

end FramePlan

/-! Where objects are. -/

def StackRegs.slotBase? (t : StackRegs) : SlotBase → Option Word
  | .sp => some t.sp
  | .reg r => if r = frameBase then some t.base else none

def Frame.address? (frame : Frame) (t : StackRegs) (i : Nat) (extra : Word) : Option Word :=
  match frame.resolve i extra with
  | .ok (base, offset) => (t.slotBase? base).map (· + offset)
  | .error _ => none

namespace Frame

variable {frame : Frame} {i : Nat} {extra offset : Word} {base : SlotBase}

theorem resolve_of_offset {place : FramePlace} {offset : Nat} (hp : frame.places[i]? = some place)
    (ho : frame.offset place = .ok offset) (hlt : offset < 2147483648) (extra : Word) :
    frame.resolve i extra = if (offset : Int) + extra.toInt ≤ 2147483647 then
      .ok (frame.base, BitVec.ofNat 32 offset + extra) else defect .frameOffset := by
  have hlow : -2147483648 ≤ extra.toInt := BitVec.le_toInt extra
  rw [resolve, hp, orFail, ok_bind, ho, ok_bind, if_neg (by omega)]
  by_cases hfits : (offset : Int) + extra.toInt ≤ 2147483647
  · have htotal : Word.ofSigned? ((offset : Int) + extra.toInt) = some (BitVec.ofNat 32 offset + extra) := by
      rw [Word.ofSigned?, if_pos (by omega), BitVec.ofInt_add, BitVec.ofInt_natCast, BitVec.ofInt_toInt]
    rw [if_pos hfits, htotal]
    rfl
  · have htotal : Word.ofSigned? ((offset : Int) + extra.toInt) = none := by
      rw [Word.ofSigned?, if_neg (by omega)]
    rw [if_neg hfits, htotal]
    rfl

theorem offset_of_resolve {r : SlotBase × Word} (h : frame.resolve i extra = .ok r) :
    ∃ place offset, frame.places[i]? = some place ∧ frame.offset place = .ok offset ∧ offset < 2147483648 := by
  obtain ⟨place, hplace, h⟩ := bind_eq_ok.mp h
  obtain ⟨offset, hoffset, h⟩ := bind_eq_ok.mp h
  refine ⟨place, offset, orFail_eq_ok.mp hplace, hoffset, ?_⟩
  by_contra hge
  rw [if_pos (by omega)] at h
  cases h

theorem resolve_base (h : frame.resolve i extra = .ok (base, offset)) : base = frame.base := by
  obtain ⟨place, -, h⟩ := bind_eq_ok.mp h
  obtain ⟨start, -, h⟩ := bind_eq_ok.mp h
  split at h
  · cases h
  · obtain ⟨total, -, h⟩ := bind_eq_ok.mp h
    cases h
    rfl

/-- Bytes of an object are found from its start. -/
theorem resolve_shift (h : frame.resolve i 0#32 = .ok (base, offset)) (extra : Word) :
    frame.resolve i extra = if offset.toInt + extra.toInt ≤ 2147483647 then .ok (base, offset + extra)
      else defect .frameOffset := by
  obtain ⟨place, start, hplace, hstart, hlt⟩ := offset_of_resolve h
  have hint : (BitVec.ofNat 32 start).toInt = start := by
    rw [BitVec.toInt_ofNat', Int.bmod_eq_of_le] <;> omega
  rw [resolve_of_offset hplace hstart hlt 0#32, if_pos (by simp; omega), BitVec.add_zero] at h
  obtain ⟨rfl, rfl⟩ := Prod.mk.inj (Except.ok.inj h)
  rw [resolve_of_offset hplace hstart hlt extra, hint]

section Entered

variable {s t : StackRegs} {place : FramePlace} {offset : Nat} {post pre : List Pseudo} {r : Register}

/-- Behind the prologue slots count from the stack pointer, whichever register stands for it. -/
theorem slotBase_prologue (h : StackRun frame frame.prologue s t) : t.slotBase? frame.base = some t.sp := by
  obtain ⟨-, hbase⟩ := h.prologue
  rw [base]
  cases hb : frame.frameBase with
  | false => rfl
  | true => exact congrArg some (hbase hb)

theorem address?_of_base {a : Word} (hbase : t.slotBase? frame.base = some a) (hp : frame.places[i]? = some place)
    (ho : frame.offset place = .ok offset) (hlt : offset < 2147483648) :
    frame.address? t i 0#32 = some (a + BitVec.ofNat 32 offset) := by
  have hfits : (offset : Int) + (0#32).toInt ≤ 2147483647 := by
    rw [BitVec.toInt_zero]
    omega
  rw [address?, resolve_of_offset hp ho hlt, if_pos hfits, BitVec.add_zero]
  dsimp only
  rw [hbase]
  rfl

theorem address?_of_offset (h : StackRun frame frame.prologue s t) (hp : frame.places[i]? = some place)
    (ho : frame.offset place = .ok offset) (hlt : offset < 2147483648) :
    frame.address? t i 0#32 = some (t.sp + BitVec.ofNat 32 offset) :=
  address?_of_base (slotBase_prologue h) hp ho hlt

/-- An offset from the stack pointer behind the prologue that reaches beyond the frame, from where it stood at entry. -/
theorem sp_add_entry (h : StackRun frame frame.prologue s t) (k : Nat) :
    t.sp + BitVec.ofNat 32 (frame.stackSize + wordSize * frame.pushes + k) = s.sp + BitVec.ofNat 32 k := by
  rw [h.prologue.1, depth, Nat.add_comm (wordSize * frame.pushes), BitVec.ofNat_add _ k, ← BitVec.add_assoc,
    BitVec.sub_add_cancel]

def pushed (frame : Frame) : List Register := (if frame.frameBase then [DirectPage.frameBase] else []) ++ frame.saved

theorem length_pushed (frame : Frame) : frame.pushed.length = frame.pushes := by
  rw [pushed, pushes, List.length_append, Nat.add_comm]
  cases frame.frameBase <;> rfl

theorem prologue_eq (frame : Frame) : frame.prologue = frame.pushed.map Pseudo.push ++
    ((if 0 < frame.stackSize then [Pseudo.spAdjust (-BitVec.ofNat 32 frame.stackSize)] else []) ++
      (if frame.frameBase then [Pseudo.setFrameBase] else [])) := by
  rw [prologue, pushed, List.map_append, List.append_assoc]
  cases frame.frameBase <;> rfl

theorem epilogue_eq (frame : Frame) : frame.epilogue =
    (if frame.frameBase then [Pseudo.restoreSp] else []) ++
      (if 0 < frame.stackSize then [Pseudo.spAdjust (BitVec.ofNat 32 frame.stackSize)] else []) ++
        frame.pushed.reverse.map Pseudo.pop := by
  rw [epilogue, pushed, List.reverse_append, List.map_append, ← List.append_assoc]
  cases frame.frameBase <;> rfl

private theorem split_pushes {rs : List Register} {tail : List Pseudo}
    (h : rs.map .push ++ tail = pre ++ .push r :: post) (hnot : .push r ∉ tail) :
    ∃ rs1 rs2, pre = rs1.map .push ∧ rs = rs1 ++ r :: rs2 := by
  induction rs generalizing pre with
  | nil =>
    have htail : tail = pre ++ .push r :: post := h
    exact absurd (htail ▸ List.mem_append_right pre List.mem_cons_self) hnot
  | cons q rs ih =>
    cases pre with
    | nil =>
      obtain ⟨hq, -⟩ := List.cons.inj h
      exact ⟨[], rs, rfl, by rw [Pseudo.push.inj hq]; rfl⟩
    | cons m pre =>
      obtain ⟨rfl, hrest⟩ := List.cons.inj h
      obtain ⟨rs1, rs2, rfl, rfl⟩ := ih hrest
      exact ⟨q :: rs1, rs2, rfl, rfl⟩

theorem pushed_above (h : StackRun frame frame.prologue s t) {u : StackRegs}
    (hsplit : frame.prologue = pre ++ .push r :: post) (hrun : StackRun frame pre s u) :
    ∃ k, u.sp = t.sp + BitVec.ofNat 32 (frame.stackSize + wordSize * (k + 1)) ∧ k < frame.pushes := by
  -- nothing behind the pushes is a push, so that only pushes come before this one
  obtain ⟨rs1, rs2, rfl, hpushed⟩ := split_pushes (frame.prologue_eq.symm.trans hsplit) (by split <;> split <;> simp)
  have hlen : frame.pushes = rs2.length + 1 + rs1.length := by
    rw [← length_pushed, hpushed, List.length_append, List.length_cons]
    omega
  refine ⟨rs2.length, ?_, by omega⟩
  have hsp := sp_add_entry h 0
  rw [Nat.add_zero, BitVec.add_zero, hlen, Nat.mul_add, ← Nat.add_assoc, BitVec.ofNat_add _ (wordSize * rs1.length),
    ← BitVec.add_assoc] at hsp
  rw [hrun.pushes, ← hsp, BitVec.add_sub_cancel]

end Entered

end Frame

def BytesApart (a : Word) (n : Nat) (b : Word) (m : Nat) : Prop :=
  ∀ x < n, ∀ y < m, a + BitVec.ofNat 32 x ≠ b + BitVec.ofNat 32 y

variable {n m : Nat}

theorem bytesApart_of_le {j k : Nat} (a : Word) (hle : j + n ≤ k) (hfits : k + m ≤ 4294967296) :
    BytesApart (a + BitVec.ofNat 32 j) n (a + BitVec.ofNat 32 k) m := by
  intro x hx y hy he
  rw [BitVec.add_assoc, BitVec.add_assoc, ← BitVec.ofNat_add, ← BitVec.ofNat_add] at he
  have hnat := congrArg BitVec.toNat (BitVec.add_right_inj _ |>.mp he)
  rw [BitVec.toNat_ofNat, BitVec.toNat_ofNat] at hnat
  omega

theorem BytesApart.symm {a b : Word} (h : BytesApart a n b m) : BytesApart b m a n :=
  fun y hy x hx he => h x hx y hy he.symm

/-- What holds of the objects of a frame behind its prologue, which led from `s` to `t`. -/
structure Frame.Consistent (frame : Frame) (ops : List FrameOp) (s t : StackRegs) : Prop where
  /-- The register that slots count from holds the stack pointer. -/
  base : t.slotBase? frame.base = some t.sp
  /-- Indices are those of the objects that the steps gave. -/
  given : ∀ pre op post i o, ops = pre ++ op :: post → (op.apply (.build pre)).1 = some i → op.object? = some o →
    (FramePlan.build ops).objects[i]? = some o
  /-- Local objects lie above the arguments of calls and below the pushed registers. -/
  locals : ∀ (i : Nat) size align, (FramePlan.build ops).objects[i]? = some (.local size align) →
    ∃ start, frame.address? t i 0#32 = some (t.sp + BitVec.ofNat 32 start) ∧ frame.callFrameSize ≤ start ∧
      start + size ≤ frame.stackSize
  apart : ∀ (i j : Nat) size align size' align' a b, i ≠ j →
    (FramePlan.build ops).objects[i]? = some (.local size align) →
    (FramePlan.build ops).objects[j]? = some (.local size' align') →
    frame.address? t i 0#32 = some a → frame.address? t j 0#32 = some b → BytesApart a size b size'
  /-- The arguments of a call lie apart from them, `room` bytes after which were given out on the stack. -/
  calls : ∀ n room u w, .noteCall n ∈ ops → room + n < 2147483648 → u.sp = t.sp - BitVec.ofNat 32 room →
    StackStep frame (.callStackDown n) u w → ∀ (i : Nat) size align a,
    (FramePlan.build ops).objects[i]? = some (.local size align) → frame.address? t i 0#32 = some a →
    BytesApart w.sp n a size
  /-- So do the pushed registers, each of which is stored where the stack pointer stands. -/
  pushed : ∀ pre r post u, frame.prologue = pre ++ .push r :: post → StackRun frame pre s u →
    ∀ (i : Nat) size align a, (FramePlan.build ops).objects[i]? = some (.local size align) →
    frame.address? t i 0#32 = some a → BytesApart u.sp wordSize a size
  returnAddress : ∀ i : Nat, (FramePlan.build ops).objects[i]? = some .returnAddress →
    frame.address? t i 0#32 = some (s.sp + BitVec.ofNat 32 wordSize)
  incoming : ∀ (i : Nat) offset size, (FramePlan.build ops).objects[i]? = some (.incoming offset size) →
    frame.address? t i 0#32 = some (s.sp + BitVec.ofNat 32 (incomingArgsOffset + offset))
  shift : ∀ i base offset extra, frame.resolve i 0#32 = .ok (base, offset) →
    frame.resolve i extra = if offset.toInt + extra.toInt ≤ 2147483647 then .ok (base, offset + extra)
      else defect .frameOffset

def Frame.localOffset (frame : Frame) (i : Nat) : Nat :=
  match frame.places[i]? with
  | some (.local start) => frame.callFrameSize + start
  | _ => 0

namespace Frame.LaidFrom

variable {p : FramePlan} {frame : Frame} {s t : StackRegs} {i j : Nat}

theorem entry_lt (h : frame.LaidFrom p) (hf : p.Fits) :
    frame.stackSize + wordSize * frame.pushes + incomingArgsOffset < 2147483648 := by
  rw [h.entryBytes]
  exact hf.entry

variable {size align : Nat} {u : StackRegs}

theorem local_within (h : frame.LaidFrom p) (hi : p.objects[i]? = some (.local size align)) :
    frame.callFrameSize ≤ frame.localOffset i ∧ frame.localOffset i + size ≤ frame.stackSize := by
  obtain ⟨stop, hlaid, hstop⟩ := h.laid
  obtain ⟨start, hplace, -, hend⟩ := hlaid.locals i size align hi
  rw [localOffset, hplace]
  dsimp only
  omega

theorem local_apart (h : frame.LaidFrom p) {size' align' : Nat} (hij : i < j)
    (hi : p.objects[i]? = some (.local size align)) (hj : p.objects[j]? = some (.local size' align')) :
    frame.localOffset i + size ≤ frame.localOffset j := by
  obtain ⟨stop, hlaid, hstop⟩ := h.laid
  obtain ⟨start, hplace, -⟩ := hlaid.locals i size align hi
  obtain ⟨start', hplace', -⟩ := hlaid.locals j size' align' hj
  have hapart := hlaid.apart i j size align size' align' start start' hij hi hj hplace hplace'
  rw [localOffset, localOffset, hplace, hplace']
  dsimp only
  omega

section

variable (h : frame.LaidFrom p) (hf : p.Fits) (hrun : StackRun frame frame.prologue s t)

include h hf hrun

theorem address_local (hi : p.objects[i]? = some (.local size align)) :
    frame.address? t i 0#32 = some (t.sp + BitVec.ofNat 32 (frame.localOffset i)) := by
  have hentry := h.entry_lt hf
  obtain ⟨-, hwithin⟩ := h.local_within hi
  obtain ⟨stop, hlaid, -⟩ := h.laid
  obtain ⟨start, hplace, -⟩ := hlaid.locals i size align hi
  rw [localOffset, hplace] at hwithin ⊢
  dsimp only at hwithin ⊢
  refine address?_of_offset hrun hplace ?_ (by omega)
  rw [offset, unsigned32_of_lt (by omega), ok_bind]
  exact unsigned32_of_lt (by omega)

theorem address_incoming {offset : Nat} (hi : p.objects[i]? = some (.incoming offset size)) :
    frame.address? t i 0#32 = some (s.sp + BitVec.ofNat 32 (incomingArgsOffset + offset)) := by
  obtain ⟨stop, hlaid, -⟩ := h.laid
  have hlt := hf.incoming offset size (List.mem_of_getElem? hi)
  rw [← h.entryBytes] at hlt
  rw [← sp_add_entry hrun, ← Nat.add_assoc]
  refine address?_of_offset hrun (hlaid.incoming i offset size hi) ?_ hlt
  rw [Frame.offset, unsigned32_of_lt (by omega), ok_bind]
  exact unsigned32_of_lt (by omega)

theorem address_returnAddress (hi : p.objects[i]? = some .returnAddress) :
    frame.address? t i 0#32 = some (s.sp + BitVec.ofNat 32 wordSize) := by
  have hentry := h.entry_lt hf
  have hword : wordSize ≤ incomingArgsOffset := by decide
  rw [← sp_add_entry hrun]
  refine address?_of_offset hrun (h.returnAddress i hi) ?_ (by omega)
  rw [offset, unsigned32_of_lt (by omega), ok_bind]
  exact unsigned32_of_lt (by omega)

end

/-- The arguments of a call lie below the local objects, also where the stack pointer moves for the call. -/
theorem call_apart (h : frame.LaidFrom p) (hf : p.Fits) {n room : Nat} {w : StackRegs}
    (hcalls : p.hasCalls = true) (hn : n ≤ p.maxCallFrame) (hroom : room + n < 2147483648)
    (hu : u.sp = t.sp - BitVec.ofNat 32 room) (hstep : StackStep frame (.callStackDown n) u w)
    (hi : p.objects[i]? = some (.local size align)) :
    BytesApart w.sp n (t.sp + BitVec.ofNat 32 (frame.localOffset i)) size := by
  have hentry := h.entry_lt hf
  obtain ⟨hlow, hhigh⟩ := h.local_within hi
  have hsize : n ≤ frame.callFrameSize := by
    rw [h.callFrameSize, FramePlan.callBytes, if_pos hcalls]
    omega
  obtain ⟨k, hk, hle⟩ : ∃ k, w.sp = t.sp - BitVec.ofNat 32 k ∧ k ≤ room + n := by
    have hw := hstep.sp _ rfl
    rw [hu] at hw
    refine ⟨room + (frame.callAdjustment? n).getD 0, ?_, ?_⟩
    · rw [hw, BitVec.ofNat_add, BitVec.sub_sub]
    · rw [Frame.callAdjustment?]
      split <;> simp
  -- from where the arguments begin, the object is as much further away as the stack pointer moved
  have hsp : t.sp = w.sp + BitVec.ofNat 32 k := by rw [hk, BitVec.sub_add_cancel]
  have hapart := bytesApart_of_le w.sp (show 0 + n ≤ k + frame.localOffset i by omega)
    (show k + frame.localOffset i + size ≤ 4294967296 by omega)
  rw [BitVec.add_zero, BitVec.ofNat_add, ← BitVec.add_assoc, ← hsp] at hapart
  exact hapart

theorem pushed_apart (h : frame.LaidFrom p) (hf : p.Fits) (hrun : StackRun frame frame.prologue s t)
    {pre post : List Pseudo} {r : Register}
    (hsplit : frame.prologue = pre ++ .push r :: post) (hpre : StackRun frame pre s u)
    (hi : p.objects[i]? = some (.local size align)) :
    BytesApart u.sp wordSize (t.sp + BitVec.ofNat 32 (frame.localOffset i)) size := by
  have hentry := h.entry_lt hf
  obtain ⟨-, hhigh⟩ := h.local_within hi
  obtain ⟨k, hk, hlt⟩ := pushed_above hrun hsplit hpre
  have hpushes : wordSize * (k + 1) ≤ wordSize * frame.pushes := Nat.mul_le_mul_left _ hlt
  have hword : wordSize ≤ incomingArgsOffset := by decide
  rw [hk]
  exact (bytesApart_of_le t.sp (by omega) (by omega)).symm

end Frame.LaidFrom

/-- The objects of a frame that fits lie as they should. -/
theorem FramePlan.finalize_consistent (ops : List FrameOp) (hf : (build ops).Fits) :
    ∃ frame, (build ops).finalize = .ok frame ∧ frame.entryCode = .ok frame.prologue ∧
      ∀ s t, StackRun frame frame.prologue s t → frame.Consistent ops s t := by
  have hsound := build_sound ops
  obtain ⟨frame, hframe⟩ := finalize_ok hsound hf
  have hlaid := finalize_laidFrom hsound.aligned hframe
  have hentry := hlaid.entry_lt hf
  refine ⟨frame, hframe, if_neg (by omega), fun s t hrun => ?_⟩
  have hlocal {i size align : Nat} {a : Word} (hi : (build ops).objects[i]? = some (.local size align))
      (ha : frame.address? t i 0#32 = some a) : t.sp + BitVec.ofNat 32 (frame.localOffset i) = a :=
    Option.some.inj ((hlaid.address_local hf hrun hi).symm.trans ha)
  constructor
  case base => exact Frame.slotBase_prologue hrun
  case given =>
    rintro pre op post i o rfl hi ho
    exact build_object hi ho
  case locals =>
    intro i size align hi
    exact ⟨_, hlaid.address_local hf hrun hi, hlaid.local_within hi⟩
  case apart =>
    intro i j size align size' align' a b hij hi hj ha hb
    obtain ⟨-, hwithin⟩ := hlaid.local_within hi
    obtain ⟨-, hwithin'⟩ := hlaid.local_within hj
    rw [← hlocal hi ha, ← hlocal hj hb]
    rcases Nat.lt_or_gt_of_ne hij with hlt | hlt
    · exact bytesApart_of_le t.sp (hlaid.local_apart hlt hi hj) (by omega)
    · exact (bytesApart_of_le t.sp (hlaid.local_apart hlt hj hi) (by omega)).symm
  case calls =>
    intro n room u w hn hroom hu hstep i size align a hi ha
    obtain ⟨hcalls, hmax⟩ := build_noted hn
    rw [← hlocal hi ha]
    exact hlaid.call_apart hf hcalls hmax hroom hu hstep hi
  case pushed =>
    intro pre r post u hsplit hpre i size align a hi ha
    rw [← hlocal hi ha]
    exact hlaid.pushed_apart hf hrun hsplit hpre hi
  case returnAddress => exact fun i hi => hlaid.address_returnAddress hf hrun hi
  case incoming => exact fun i offset size hi => hlaid.address_incoming hf hrun hi
  case shift => exact fun i base offset extra h => Frame.resolve_shift h extra

def variedFrame : List FrameOp :=
  [.addLocal 3 0, .addIncoming 4 4, .noteCall 12, .addLocal 8 16, .returnAddressIndex, .setVararg 8, .setVarSized,
    .setCalleeSaved [.general 16, .general 29, .general 17, .general 16], .addLocal 1 1]

theorem FramePlan.finalize_consistent_varied :
    (build variedFrame).Fits ∧ ∃ frame, (build variedFrame).finalize = .ok frame ∧
      frame.entryCode = .ok frame.prologue ∧
      ∀ s t, StackRun frame frame.prologue s t → frame.Consistent variedFrame s t := by
  have hin : ∀ o ∈ (build variedFrame).objects, ∀ offset size, o = .incoming offset size → offset ≤ 8 := by
    rw [show (build variedFrame).objects = [.local 3 1, .incoming 4 4, .local 8 16, .returnAddress, .incoming 8 0,
      .local 1 1] by decide]
    simp
  have hentry : (build variedFrame).entryBytes ≤ 1000 := by
    have hsaved := (savedRegisters_spec (build variedFrame).needsFrameBase (build variedFrame).calleeSaved).2
    have hall : DirectPage.calleeSaved.length ≤ 64 := by decide
    have hstack : (build variedFrame).stackBytes = 40 := by decide
    have hbase : (build variedFrame).needsFrameBase.toNat = 1 := by decide
    rw [entryBytes, hstack, hbase, wordSize]
    omega
  have hargs : incomingArgsOffset = 8 := rfl
  have hfits : (build variedFrame).Fits := by
    refine ⟨by omega, fun offset size hm => ?_⟩
    have := hin _ hm offset size rfl
    omega
  exact ⟨hfits, finalize_consistent variedFrame hfits⟩

end DirectPage
