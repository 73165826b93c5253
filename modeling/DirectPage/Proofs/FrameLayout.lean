import DirectPage.Proofs.BlockCode

/-! Frames with their layout fixed: local objects lie apart from each other below the pushed registers, stack
arguments above the return address. -/
namespace DirectPage

theorem le_alignUp (n : Nat) {align : Nat} (h : 0 < align) : n ≤ alignUp n align := by
  have := Nat.div_add_mod (n + align - 1) align
  have := Nat.mod_lt (n + align - 1) h
  rw [alignUp, Nat.mul_comm]
  omega

/-- Of several bounds only the largest counts. -/
theorem bounded_bind {α β : Type} {n limit : Nat} {a : α} {b : β} {k : α → Checked β} (hle : n ≤ limit)
    (h : n < 4294967296 → k a = if limit < 4294967296 then .ok b else abort) :
    ((if n < 4294967296 then .ok a else abort) >>= k) = if limit < 4294967296 then .ok b else abort := by
  by_cases hn : n < 4294967296
  · rw [if_pos hn, ok_bind, h hn]
  · rw [if_neg hn, if_neg (by omega)]
    rfl

namespace FramePlan

/-! The layout in exact byte counts, without the bounds of machine words. -/

def localEnd : Nat → List FrameObject → Nat
  | top, [] => top
  | top, .local size align :: rest => localEnd (alignUp top align + size) rest
  | top, _ :: rest => localEnd top rest

def exactPlaces : Nat → List FrameObject → List FramePlace
  | _, [] => []
  | top, .local size align :: rest => .local (alignUp top align) :: exactPlaces (alignUp top align + size) rest
  | top, .incoming offset _ :: rest => .incoming offset :: exactPlaces top rest
  | top, .returnAddress :: rest => .returnAddress :: exactPlaces top rest

def callBytes (p : FramePlan) : Nat := if p.hasCalls then max p.maxCallFrame returnAddressSize else returnAddressSize

def stackBytes (p : FramePlan) : Nat :=
  alignUp (p.callBytes + alignUp (localEnd 0 p.objects) wordSize) wordSize

def entryBytes (p : FramePlan) : Nat :=
  p.stackBytes + wordSize * ((savedRegisters p.needsFrameBase p.calleeSaved).length + p.needsFrameBase.toNat)

def layout (p : FramePlan) : Frame where
  places := exactPlaces 0 p.objects
  callFrameSize := p.callBytes
  stackSize := p.stackBytes
  frameBase := p.needsFrameBase
  reservedCallFrame := !p.hasVarSized
  saved := savedRegisters p.needsFrameBase p.calleeSaved

section Exact

variable {objects : List FrameObject} {p : FramePlan} {frame : Frame} {top : Nat}

theorem layoutObjects_eq_ok {laid : List FramePlace × Nat} (h : layoutObjects top objects = .ok laid) :
    laid = (exactPlaces top objects, localEnd top objects) := by
  induction objects generalizing top laid with
  | nil => exact (Except.ok.inj h).symm
  | cons o rest ih =>
    cases o with
    | «local» size align =>
      obtain ⟨start, hstart, h⟩ := bind_eq_ok.mp h
      obtain ⟨next, hnext, h⟩ := bind_eq_ok.mp h
      obtain rfl := unsigned32_eq_ok hnext
      obtain rfl := unsigned32_eq_ok hstart
      obtain ⟨laid', hrest, h⟩ := bind_eq_ok.mp h
      rw [← Except.ok.inj h, ih hrest]
      rfl
    | incoming | returnAddress =>
      obtain ⟨laid', hrest, h⟩ := bind_eq_ok.mp h
      rw [← Except.ok.inj h, ih hrest]
      rfl

/-- Whatever layout gives is exact. -/
theorem finalize_eq_ok (h : p.finalize = .ok frame) : frame = p.layout := by
  obtain ⟨laid, hlaid, h⟩ := bind_eq_ok.mp h
  obtain ⟨locals, hlocals, h⟩ := bind_eq_ok.mp h
  obtain ⟨room, hroom, h⟩ := bind_eq_ok.mp h
  obtain ⟨stackSize, hsize, h⟩ := bind_eq_ok.mp h
  obtain rfl := layoutObjects_eq_ok hlaid
  obtain rfl := unsigned32_eq_ok hsize
  obtain rfl := unsigned32_eq_ok hroom
  obtain rfl := unsigned32_eq_ok hlocals
  exact (Except.ok.inj h).symm

theorem le_localEnd (ha : ∀ size align, .local size align ∈ objects → 0 < align) (top : Nat) :
    top ≤ localEnd top objects := by
  induction objects generalizing top with
  | nil => exact Nat.le_refl top
  | cons o rest ih =>
    have ih := ih fun size align hm => ha size align (List.mem_cons_of_mem _ hm)
    cases o with
    | «local» size align =>
      have hup := le_alignUp top (ha size align List.mem_cons_self)
      have hrest := ih (alignUp top align + size)
      rw [localEnd]
      omega
    | incoming | returnAddress => exact ih top

theorem layoutObjects_eq (ha : ∀ size align, .local size align ∈ objects → 0 < align) (htop : top < 4294967296) :
    layoutObjects top objects = if localEnd top objects < 4294967296 then
      .ok (exactPlaces top objects, localEnd top objects) else abort := by
  induction objects generalizing top with
  | nil => exact (if_pos htop).symm
  | cons o rest ih =>
    have hrest : ∀ size align, .local size align ∈ rest → 0 < align := fun size align hm =>
      ha size align (List.mem_cons_of_mem _ hm)
    cases o with
    | «local» size align =>
      have hend := le_localEnd hrest (alignUp top align + size)
      refine bounded_bind (show _ ≤ localEnd _ _ by rw [localEnd]; omega) fun _ => bounded_bind hend fun hnext => ?_
      rw [ih hrest hnext]
      exact bounded_bind (Nat.le_refl _) fun h => (if_pos h).symm
    | incoming | returnAddress =>
      rw [layoutObjects, ih hrest htop]
      exact bounded_bind (Nat.le_refl _) fun h => (if_pos h).symm

/-- Layout gives up exactly if the frame is too large for an unsigned word. -/
theorem finalize_eq (ha : ∀ size align, .local size align ∈ p.objects → 0 < align) :
    p.finalize = if p.stackBytes < 4294967296 then .ok p.layout else abort := by
  have hword : 0 < wordSize := by decide
  have hend := le_alignUp (localEnd 0 p.objects) hword
  have hup := le_alignUp (p.callBytes + alignUp (localEnd 0 p.objects) wordSize) hword
  rw [finalize, layoutObjects_eq ha (by decide)]
  refine bounded_bind (Nat.le_trans (Nat.le_trans hend (Nat.le_add_left _ _)) hup) fun _ => ?_
  refine bounded_bind (Nat.le_trans (Nat.le_add_left _ _) hup) fun _ => ?_
  exact bounded_bind hup fun _ => bounded_bind (Nat.le_refl _) fun h => (if_pos h).symm

theorem le_stackBytes (p : FramePlan) : p.callBytes + localEnd 0 p.objects ≤ p.stackBytes :=
  Nat.le_trans (Nat.add_le_add_left (le_alignUp _ (by decide)) _) (le_alignUp _ (by decide))

end Exact

end FramePlan

/-- Local objects one behind the other between two offsets, and stack arguments at their own. -/
structure Laid (top : Nat) (objects : List FrameObject) (places : List FramePlace) (stop : Nat) : Prop where
  le : top ≤ stop
  locals : ∀ (i : Nat) size align, objects[i]? = some (.local size align) →
    ∃ start, places[i]? = some (.local start) ∧ top ≤ start ∧ start + size ≤ stop
  incoming : ∀ (i : Nat) offset size, objects[i]? = some (.incoming offset size) →
    places[i]? = some (.incoming offset)
  apart : ∀ (i j : Nat) size align size' align' start start', i < j → objects[i]? = some (.local size align) →
    objects[j]? = some (.local size' align') → places[i]? = some (.local start) → places[j]? = some (.local start') →
    start + size ≤ start'

/-- An object in front that takes no room. -/
private theorem Laid.cons {top stop : Nat} {objects : List FrameObject} {places : List FramePlace}
    (h : Laid top objects places stop) {o : FrameObject} {place : FramePlace} (hl : ∀ size align, o ≠ .local size align)
    (hi : ∀ offset size, o = .incoming offset size → place = .incoming offset) :
    Laid top (o :: objects) (place :: places) stop where
  le := h.le
  locals i size align ho := by
    cases i with
    | zero => exact absurd (Option.some.inj ho) (hl size align)
    | succ i => exact h.locals i size align ho
  incoming i offset size ho := by
    cases i with
    | zero => exact congrArg some (hi offset size (Option.some.inj ho))
    | succ i => exact h.incoming i offset size ho
  apart i j size align size' align' start start' hij ho ho' hs hs' := by
    cases i with
    | zero => exact absurd (Option.some.inj ho) (hl size align)
    | succ i =>
      cases j with
      | zero => omega
      | succ j => exact h.apart i j size align size' align' start start' (by omega) ho ho' hs hs'

theorem laid_exactPlaces {objects : List FrameObject} (ha : ∀ size align, .local size align ∈ objects → 0 < align)
    (top : Nat) : Laid top objects (FramePlan.exactPlaces top objects) (FramePlan.localEnd top objects) := by
  induction objects generalizing top with
  | nil => exact ⟨Nat.le_refl _, by simp, by simp, by simp⟩
  | cons o rest ih =>
    have ih := ih fun size align hm => ha size align (List.mem_cons_of_mem _ hm)
    cases o with
    | «local» size align =>
      have hlaid := ih (alignUp top align + size)
      have htop := le_alignUp top (ha size align List.mem_cons_self)
      have hle := hlaid.le
      refine ⟨by rw [FramePlan.localEnd]; omega, fun i size' align' ho => ?_, fun i offset size' ho => ?_,
        fun i j size' align' size'' align'' start start' hij ho ho' hs hs' => ?_⟩
      · cases i with
        | zero =>
          cases ho
          exact ⟨_, rfl, htop, hle⟩
        | succ i =>
          obtain ⟨start, hplace, hbefore, hend⟩ := hlaid.locals i size' align' ho
          exact ⟨start, hplace, by omega, hend⟩
      · cases i with
        | zero => cases ho
        | succ i => exact hlaid.incoming i offset size' ho
      · cases j with
        | zero => omega
        | succ j =>
          cases i with
          | zero =>
            cases ho
            cases hs
            obtain ⟨start, hplace, hbefore, -⟩ := hlaid.locals j size'' align'' ho'
            cases (Option.some.inj (hplace.symm.trans hs'))
            exact hbefore
          | succ i => exact hlaid.apart i j size' align' size'' align'' start start' (by omega) ho ho' hs hs'
    | incoming offset size => exact (ih top).cons (by simp) (by rintro _ _ ⟨⟩; rfl)
    | returnAddress => exact (ih top).cons (by simp) (by simp)

structure Frame.Simple (frame : Frame) (objects : List FrameObject) : Prop where
  frameBase : frame.frameBase = false
  callFrameSize : frame.callFrameSize = wordSize
  laid : ∃ stop, Laid 0 objects frame.places stop ∧ wordSize + stop ≤ frame.stackSize

theorem finalize_simple {plan : FramePlan} {frame : Frame} (h : plan.finalize = .ok frame)
    (hb : plan.needsFrameBase = false) (hc : plan.hasCalls = false)
    (ha : ∀ size align, .local size align ∈ plan.objects → 0 < align) :
    frame.Simple plan.objects ∧ frame.saved = savedRegisters false plan.calleeSaved := by
  obtain rfl := FramePlan.finalize_eq_ok h
  have hcall : plan.callBytes = wordSize := if_neg (by simp [hc])
  refine ⟨⟨hb, hcall, _, laid_exactPlaces ha 0, ?_⟩, by rw [FramePlan.layout, hb]⟩
  rw [← hcall]
  exact plan.le_stackBytes

namespace Frame

def home (frame : Frame) (sp i : Nat) : Nat :=
  match frame.places[i]? with
  | some (.local start) => sp + (wordSize + start)
  | some (.incoming offset) => sp + (frame.stackSize + wordSize * frame.pushes + incomingArgsOffset + offset)
  | _ => 0

variable {frame : Frame} {objects : List FrameObject} {i : Nat}

private theorem resolve_eq (hb : frame.frameBase = false) {place : FramePlace} (hp : frame.places[i]? = some place)
    {r : SlotBase × Word} (h : frame.resolve i 0#32 = .ok r) :
    ∃ offset, frame.offset place = .ok offset ∧ r.1 = .sp ∧ r.2.toNat = offset := by
  rw [resolve, hp, orFail, ok_bind] at h
  obtain ⟨offset, hoffset, h1⟩ := bind_eq_ok.mp h
  split at h1
  · cases h1
  · next hlt =>
    obtain ⟨total, htotal, h2⟩ := bind_eq_ok.mp h1
    cases h2
    refine ⟨offset, hoffset, by rw [base, hb]; rfl, ?_⟩
    rw [orFail_eq_ok, Word.ofSigned?] at htotal
    split at htotal
    · cases htotal
      change (BitVec.ofInt 32 ((offset : Int) + 0)).toNat = offset
      rw [Int.add_zero, BitVec.ofInt_natCast, BitVec.toNat_ofNat]
      omega
    · cases htotal

/-- Stack arguments lie above the pushed registers and the return address. -/
theorem Simple.home_incoming (h : frame.Simple objects) (sp : Nat) {offset size : Nat}
    (hi : objects[i]? = some (.incoming offset size)) :
    frame.places[i]? = some (.incoming offset) ∧
      frame.home sp i = sp + (frame.stackSize + wordSize * frame.pushes + incomingArgsOffset + offset) := by
  obtain ⟨stop, hlaid, -⟩ := h.laid
  have hp := hlaid.incoming i offset size hi
  exact ⟨hp, by rw [home, hp]⟩

/-- The objects of a frame that fits above the direct page have homes of their own. -/
theorem Simple.homes (h : frame.Simple objects) {sp : Word} (hpage : 256 ≤ sp.toNat)
    (hsize : sp.toNat + frame.stackSize ≤ memorySize)
    (hin : ∀ offset, .incoming offset wordSize ∈ objects →
      sp.toNat + (frame.stackSize + wordSize * frame.pushes + incomingArgsOffset + offset) + wordSize ≤ memorySize) :
    Expansion.Homes frame objects sp (sp.toNat + frame.stackSize) (frame.home sp.toNat) := by
  obtain ⟨stop, hlaid, hstop⟩ := h.laid
  have hword : wordSize = 4 := rfl
  have hargs : incomingArgsOffset = 8 := rfl
  have hlocal {i align : Nat} (hi : objects[i]? = some (.local wordSize align)) :
      ∃ start, frame.places[i]? = some (.local start) ∧ frame.home sp.toNat i = sp.toNat + (wordSize + start) ∧
        start + wordSize ≤ stop := by
    obtain ⟨start, hp, -, hend⟩ := hlaid.locals i wordSize align hi
    exact ⟨start, hp, by rw [home, hp], hend⟩
  -- Every object of a word is at an offset that the frame resolves it to.
  have hoffset {i : Nat} {o : FrameObject} (hi : objects[i]? = some o) (ho : o.isWord = true) :
      ∃ place total, frame.places[i]? = some place ∧ (∀ offset, frame.offset place = .ok offset → offset = total) ∧
        frame.home sp.toNat i = sp.toNat + total ∧ wordSize ≤ total ∧ sp.toNat + total + wordSize ≤ memorySize := by
    cases o with
    | «local» size align =>
      obtain rfl : size = wordSize := by simpa [FrameObject.isWord] using ho
      obtain ⟨start, hp, hhome, hend⟩ := hlocal hi
      refine ⟨.local start, wordSize + start, hp, fun offset hoff => ?_, hhome, by omega, by omega⟩
      obtain ⟨top, -, h1⟩ := bind_eq_ok.mp hoff
      rw [unsigned32_eq_ok h1, h.callFrameSize]
    | incoming arg size =>
      obtain rfl : size = wordSize := by simpa [FrameObject.isWord] using ho
      obtain ⟨hp, hhome⟩ := h.home_incoming sp.toNat hi
      refine ⟨.incoming arg, _, hp, fun offset hoff => ?_, hhome, by omega, hin arg (List.mem_of_getElem? hi)⟩
      obtain ⟨top, htop, h1⟩ := bind_eq_ok.mp hoff
      rw [unsigned32_eq_ok h1, unsigned32_eq_ok htop]
    | returnAddress => cases ho
  refine ⟨hpage, by omega, hsize, fun i o hi ho r hr => ?_, fun i o hi ho => ?_, fun i align hi => ?_,
    fun i align j o hi hj ho hji => ?_⟩
  · obtain ⟨place, total, hp, hplace, hhome, -, hle⟩ := hoffset hi ho
    obtain ⟨offset, hoff, hr1, hr2⟩ := resolve_eq h.frameBase hp hr
    refine ⟨r.2, by rw [← hr1], ?_⟩
    rw [hhome, BitVec.toNat_add, hr2, hplace offset hoff, Nat.mod_eq_of_lt]
    rw [memorySize] at hle
    omega
  · obtain ⟨place, total, -, -, hhome, hge, hle⟩ := hoffset hi ho
    rw [hhome]
    omega
  · obtain ⟨start, -, hhome, hend⟩ := hlocal hi
    rw [hhome]
    omega
  · obtain ⟨start, hp, hhome, hend⟩ := hlocal hi
    cases o with
    | «local» size align' =>
      obtain rfl : size = wordSize := by simpa [FrameObject.isWord] using ho
      obtain ⟨start', hp', hhome', -⟩ := hlocal hj
      rw [hhome, hhome']
      rcases Nat.lt_or_gt_of_ne hji with hlt | hlt
      · have := hlaid.apart j i _ _ _ _ _ _ hlt hj hi hp' hp
        omega
      · have := hlaid.apart i j _ _ _ _ _ _ hlt hi hj hp hp'
        omega
    | incoming arg size =>
      obtain rfl : size = wordSize := by simpa [FrameObject.isWord] using ho
      rw [hhome, (h.home_incoming sp.toNat hj).2]
      omega
    | returnAddress => cases ho

end Frame

end DirectPage
