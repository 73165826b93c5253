import DirectPage.Proofs.AssignedScope

/-! What the instructions of an operation may do.

They do not branch or return, they write no slot but the one of the result and the scratch slot, and they refer to no
labels but those of blocks and constants. Nor can making them fail for a reference. -/
namespace DirectPage

structure Gives {α : Type} (given : Prop) (Q : α → Prop) (x : Checked α) : Prop where
  grounded : given → Grounded True x
  each : ∀ a, x = .ok a → Q a

namespace Gives

variable {α β : Type} {given : Prop} {Q R : α → Prop} {k : β → Checked α} {x : Checked β}

theorem ok {a : α} (h : Q a) : Gives given Q (.ok a) := ⟨fun _ => .ok a, fun _ ha => Except.ok.inj ha ▸ h⟩

theorem failed {e : Error} (h : e.isDangling = false) : Gives given Q (fail e) :=
  ⟨fun _ => .failed h, fun _ ha => by cases ha⟩

theorem bind (hx : given → Grounded True x) (hk : ∀ b, x = .ok b → Gives given Q (k b)) : Gives given Q (x >>= k) := by
  refine ⟨fun h => (hx h).bind fun b hb => (hk b hb).grounded h, fun a ha => ?_⟩
  obtain ⟨b, hb, ha⟩ := bind_eq_ok.mp ha
  exact (hk b hb).each a ha

theorem andThen {S : β → Prop} (hx : Gives given S x) (hk : ∀ b, S b → Gives given Q (k b)) :
    Gives given Q (x >>= k) :=
  .bind hx.grounded fun b hb => hk b (hx.each b hb)

theorem mono {x : Checked α} (hx : Gives given Q x) (h : ∀ a, Q a → R a) : Gives given R x :=
  ⟨hx.grounded, fun a ha => h a (hx.each a ha)⟩

end Gives

def Reg.register? : Reg → Option Register
  | .phys r => some r
  | .virt _ => none

def Pseudo.result? : Pseudo → Option Register
  | pop r => some r
  | setFrameBase => some frameBase
  | m => m.dst?.bind Reg.register?

def Pseudo.movesSp : Pseudo → Bool
  | push _ | pop _ | spAdjust _ | restoreSp | callStackDown _ | callStackUp _ | dynAlloc .. | call .. | ret _ => true
  | _ => false

def Writable (result : Option Register) (d : UInt8) : Prop :=
  scratch.slot? = some d ∨ ∃ r n, result = some r ∧ r.number = .ok n ∧ d = n * 4

section Writable

variable {o : Option Register} {r : Register} {d n : UInt8}

theorem writable_scratch (h : scratch.slot = .ok d) : Writable o d := .inl (orFail_eq_ok.mp h)

theorem writable_number (h : r.number = .ok n) : Writable (some r) (n * 4) := .inr ⟨r, n, rfl, h, rfl⟩

theorem writable_slot (h : r.slot = .ok d) : Writable (some r) d := by
  cases r with
  | general n =>
    have hd : (Register.general n).slot? = some d := orFail_eq_ok.mp h
    rw [Register.slot?] at hd
    split at hd
    · next hn =>
      cases hd
      exact writable_number (if_pos hn)
    · cases hd
  | _ => cases h

theorem Reg.writable_slot {r : Reg} (h : r.slot = .ok d) : Writable r.register? d := by
  cases r with
  | phys r => exact DirectPage.writable_slot h
  | virt v => cases h

theorem Reg.writable_number {r : Reg} (h : r.number = .ok n) : Writable r.register? (n * 4) := by
  cases r with
  | phys r => exact DirectPage.writable_number h
  | virt v => cases h

end Writable

structure Instruction.Tame (W : UInt8 → Prop) (labels : Nat) (i : Instruction) : Prop where
  stays : i.flow ≠ .away
  inside : i.flow ≠ .ret
  slot : ∀ d, i.destSlot? = some d → W d
  label : ∀ l, i.operand? = some (.label l) → l < labels

def Instruction.isConfined (i : Instruction) : Bool :=
  (match i.flow with
    | .away | .ret => false
    | _ => true) &&
  match i.operand? with
  | some (.label _) => false
  | _ => true

def Instruction.isBranch : Instruction → Bool
  | branch .. | branchLong .. | bra _ | brl _ => true
  | _ => false

namespace Expansion

def unbranching (is : List Instruction) : Bool := is.all (!·.isBranch)

def Tames (W : UInt8 → Prop) (labels : Nat) (is : List Instruction) : Prop := ∀ i ∈ is, i.Tame W labels

/-- Instructions that end with the stack pointer where it was. -/
structure Calms (W : UInt8 → Prop) (labels : Nat) (is : List Instruction) : Prop where
  tame : Tames W labels is
  level : spMove? is = some 0#32

theorem Calms.append {W : UInt8 → Prop} {labels : Nat} {is js : List Instruction} (hi : Calms W labels is)
    (hj : Calms W labels js) : Calms W labels (is ++ js) :=
  ⟨List.forall_mem_append.mpr ⟨hi.tame, hj.tame⟩, by rw [spMove?_append, hi.level, hj.level]; rfl⟩

theorem grounded_slot (r : Register) : Grounded True r.slot := .orFail rfl r.slot?

theorem grounded_number (r : Register) : Grounded True r.number := by
  cases r with
  | general n | float n =>
    rw [Register.number]
    split
    · exact .ok n
    · exact .failed rfl
  | _ => exact .failed rfl

def AllPhys (given : Prop) (rs : List Reg) : Prop := given → ∀ r ∈ rs, ∃ q, r = .phys q

section Registers

variable {given : Prop} {rs : List Reg} {r : Reg}

theorem AllPhys.assigned (h : AllPhys given rs) (hr : r ∈ rs) (hg : given) : Grounded True r.assigned := by
  obtain ⟨q, rfl⟩ := h hg r hr
  exact .ok q

theorem AllPhys.slot (h : AllPhys given rs) (hr : r ∈ rs) (hg : given) : Grounded True r.slot :=
  (h.assigned hr hg).bind fun q _ => grounded_slot q

theorem AllPhys.number (h : AllPhys given rs) (hr : r ∈ rs) (hg : given) : Grounded True r.number :=
  (h.assigned hr hg).bind fun q _ => grounded_number q

theorem eq_phys {q : Register} (h : r.assigned = .ok q) : r = .phys q := by
  cases r with
  | phys p => exact congrArg Reg.phys (Except.ok.inj h)
  | virt v => cases h

end Registers

section Code

open Instruction Gives

variable {given : Prop} {o : Option Register} {labels : Nat} {W : UInt8 → Prop} {is : List Instruction}
  {dst src lhs rhs : Reg} {frame : Frame} {index : Nat} {s : Stream} {S : Scope} {m : Pseudo}

private theorem tame_of (hconfined : is.all isConfined = true) {ds : List UInt8} (hdest : is.filterMap destSlot? = ds)
    (hds : ∀ d ∈ ds, W d) : Tames W labels is := by
  intro i hi
  have hi' := List.all_eq_true.mp hconfined i hi
  rw [isConfined, Bool.and_eq_true] at hi'
  refine ⟨fun h => ?_, fun h => ?_, fun d hd => hds d (hdest ▸ List.mem_filterMap.mpr ⟨i, hi, hd⟩), fun l h => ?_⟩
  · rw [h] at hi'
    cases hi'.1
  · rw [h] at hi'
    cases hi'.1
  · rw [h] at hi'
    cases hi'.2

private theorem tame_quiet (hconfined : is.all isConfined = true) (hdest : is.filterMap destSlot? = []) :
    Tames W labels is :=
  tame_of hconfined hdest (by simp)

private theorem tame_writes {d : UInt8} (hd : W d) (hconfined : is.all isConfined = true)
    (hdest : is.filterMap destSlot? = [d]) : Tames W labels is :=
  tame_of hconfined hdest (by simpa using hd)

private theorem calm_quiet (hlevel : spMove? is = some 0#32) (hconfined : is.all isConfined = true)
    (hdest : is.filterMap destSlot? = []) : Calms W labels is :=
  ⟨tame_quiet hconfined hdest, hlevel⟩

private theorem calm_writes {d : UInt8} (hd : W d) (hlevel : spMove? is = some 0#32)
    (hconfined : is.all isConfined = true) (hdest : is.filterMap destSlot? = [d]) : Calms W labels is :=
  ⟨tame_writes hd hconfined hdest, hlevel⟩

private theorem gives_copy (h : AllPhys given [dst, src]) :
    Gives given (Calms (Writable dst.register?) labels) (copy dst src) := by
  refine .bind (h.assigned (by simp)) fun rd hd => .bind (h.assigned (by simp)) fun rs _ => ?_
  obtain rfl := eq_phys hd
  split
  · exact .ok (calm_quiet rfl rfl rfl)
  · split
    · exact .bind (fun _ => grounded_slot rs) fun _ _ => .bind (fun _ => grounded_slot rd) fun _ hd =>
        .ok (calm_writes (writable_slot hd) rfl rfl rfl)
    · exact .bind (fun _ => grounded_number rd) fun _ _ => .bind (fun _ => grounded_number rs) fun _ _ =>
        .ok (calm_quiet rfl rfl rfl)
    · exact .failed rfl

theorem gives_move (h : AllPhys given [dst, src]) :
    Gives given (Tames (Writable dst.register?) labels) (move dst src) := by
  refine .bind (h.assigned (by simp)) fun rd hd => .bind (h.assigned (by simp)) fun rs _ => ?_
  obtain rfl := eq_phys hd
  split
  · exact .ok (tame_quiet rfl rfl)
  · split
    · exact .bind (fun _ => grounded_number rd) fun _ _ => .bind (fun _ => grounded_number rs) fun _ _ =>
        .ok (tame_quiet rfl rfl)
    · exact .bind (fun _ => grounded_slot rd) fun _ hd => .bind (fun _ => grounded_slot rs) fun _ _ =>
        .ok (tame_writes (writable_slot hd) rfl rfl)

private theorem gives_loadImm (h : AllPhys given [dst]) (value : Word) :
    Gives given (Calms (Writable dst.register?) labels) (loadImm dst value) := by
  refine .bind (h.slot (by simp)) fun d hd => .ok ?_
  split <;> exact calm_writes (Reg.writable_slot hd) rfl rfl rfl

private theorem gives_alu (h : AllPhys given [dst, lhs, rhs]) (op : AluOp) :
    Gives given (Calms (Writable dst.register?) labels) (alu op dst lhs rhs) := by
  refine .bind (h.slot (by simp)) fun d hd => .bind (h.slot (by simp)) fun _ _ => .bind (h.slot (by simp)) fun _ _ =>
    .ok (calm_writes (Reg.writable_slot hd) ?_ ?_ ?_)
  · cases op <;> rfl
  · cases op <;> rfl
  · cases op <;> rfl

private theorem gives_aluImm (h : AllPhys given [dst, src]) (op : AluOp) (imm : Word) :
    Gives given (Calms (Writable dst.register?) labels) (aluImm op dst src imm) := by
  refine .bind (h.slot (by simp)) fun d hd => .bind (h.slot (by simp)) fun _ _ => ?_
  split
  · exact gives_copy h
  · split
    · exact .ok (calm_writes (Reg.writable_slot hd) rfl rfl rfl)
    · split
      · exact .ok (calm_writes (Reg.writable_slot hd) rfl rfl rfl)
      · refine .ok (calm_writes (Reg.writable_slot hd) ?_ ?_ ?_)
        · cases op <;> rfl
        · cases op <;> rfl
        · cases op <;> rfl

private theorem gives_mulDiv (h : AllPhys given [dst, lhs, rhs]) (op : MulDivOp) :
    Gives given (Calms (Writable dst.register?) labels) (mulDiv op dst lhs rhs) := by
  refine .bind (h.slot (by simp)) fun d hd => .bind (h.slot (by simp)) fun _ _ => .bind (h.slot (by simp)) fun _ _ =>
    .ok (calm_writes (Reg.writable_slot hd) ?_ ?_ ?_)
  · cases op <;> rfl
  · cases op <;> rfl
  · cases op <;> rfl

private theorem gives_shiftWith {setup : List Instruction} (hlevel : spMove? setup = some 0#32)
    (hconfined : setup.all isConfined = true) (hdest : setup.filterMap destSlot? = []) (kind : ShiftKind)
    (count : UInt8) (rd rs : Register) :
    Gives given (Calms (Writable (some rd)) labels) (shiftWith setup kind count rd rs) := by
  refine .bind (fun _ => grounded_number rd) fun n hn => .bind (fun _ => grounded_number rs) fun _ _ => .ok ?_
  exact (calm_quiet hlevel hconfined hdest).append (calm_writes (writable_number hn) rfl rfl rfl)

private theorem gives_shift {amount : ShiftAmount} (h : AllPhys given (dst :: src :: amount.regs)) (kind : ShiftKind) :
    Gives given (Calms (Writable dst.register?) labels) (shift kind dst src amount) := by
  refine .bind (h.assigned (by simp)) fun rd hd => .bind (h.assigned (by simp)) fun rs _ => ?_
  obtain rfl := eq_phys hd
  cases amount with
  | reg a => exact .bind (h.slot (by simp [ShiftAmount.regs])) fun _ _ => gives_shiftWith rfl rfl rfl kind _ rd rs
  | imm n =>
    dsimp only
    split
    · exact gives_copy h
    · split
      · exact .bind (fun _ => grounded_slot rd) fun _ hd => .ok (calm_writes (writable_slot hd) rfl rfl rfl)
      · split
        · exact .bind (fun _ => grounded_slot rd) fun _ hd => .ok (calm_writes (writable_slot hd) rfl rfl rfl)
        · split <;> exact gives_shiftWith rfl rfl rfl kind _ rd rs

private theorem gives_unary (h : AllPhys given [dst, src]) (op : UnaryOp) :
    Gives given (Calms (Writable dst.register?) labels) (unary op dst src) := by
  refine .bind (h.slot (by simp)) fun d hd => .bind (h.slot (by simp)) fun _ _ => ?_
  cases op with
  | neg | not => exact .ok (calm_writes (Reg.writable_slot hd) rfl rfl rfl)
  | _ =>
    exact .bind (h.number (by simp)) fun _ hn => .bind (h.number (by simp)) fun _ _ =>
      .ok (calm_writes (Reg.writable_number hn) rfl rfl rfl)

private theorem gives_falu (h : AllPhys given [dst, lhs, rhs]) (op : FAluOp) (prec : Precision) :
    Gives given (Calms (Writable o) labels) (falu op prec dst lhs rhs) := by
  refine .bind (h.number (by simp)) fun _ _ => .bind (h.number (by simp)) fun _ _ =>
    .bind (h.number (by simp)) fun _ _ => ?_
  dsimp only
  split
  · split
    · exact .ok (calm_quiet rfl rfl rfl)
    · exact .bind (fun _ => grounded_number floatScratch) fun _ _ => .ok (calm_quiet rfl rfl rfl)
  · split <;> exact .ok (calm_quiet rfl rfl rfl)

private theorem gives_floatToSlot (h : AllPhys given [dst, src]) (op : FloatOp) (prec : Precision) :
    Gives given (Calms (Writable dst.register?) labels) (floatToSlot op prec dst src) :=
  .bind (h.number (by simp)) fun _ _ => .bind (h.slot (by simp)) fun _ hd =>
    .ok (calm_writes (Reg.writable_slot hd) rfl rfl rfl)

private theorem gives_slotToFloat (h : AllPhys given [dst, src]) (op : FloatOp) (prec : Precision) :
    Gives given (Calms (Writable o) labels) (slotToFloat op prec dst src) :=
  .bind (h.slot (by simp)) fun _ _ => .bind (h.number (by simp)) fun _ _ => .ok (calm_quiet rfl rfl rfl)

private theorem calm_stackPlus (offset : Word) : Calms W labels (stackPlus offset) := by
  rw [stackPlus, addToA]
  split <;> exact calm_quiet rfl rfl rfl

private theorem calm_slotPlus (slot : UInt8) (offset : Word) : Calms W labels (slotPlus slot offset) := by
  rw [slotPlus, addToA]
  split <;> exact calm_quiet rfl rfl rfl

private theorem tame_spAdjust (delta : Word) : Tames W labels (spAdjust delta) := by
  rw [spAdjust]
  split
  · exact tame_quiet rfl rfl
  · split <;> exact tame_quiet rfl rfl

theorem grounded_resolve (h : index < frame.places.length) (extra : Word) :
    Grounded True (frame.resolve index extra) := by
  have hoffset (place : FramePlace) : Grounded True (frame.offset place) := by
    refine (grounded_unsigned32 fun _ => trivial).bind fun top _ => ?_
    cases place <;> exact grounded_unsigned32 fun _ => trivial
  rw [Frame.resolve, List.getElem?_eq_getElem h]
  refine (Grounded.ok _).bind fun place _ => (hoffset place).bind fun offset _ => ?_
  split
  · exact .failed rfl
  · exact (Grounded.orFail rfl _).bind fun total _ => .ok _

private theorem gives_pointerTo {p : Place} {rest : List Instruction × UInt8 × Word → Code}
    (h : ∀ setup ptr y, (Calms (Writable o) labels setup) →
      Gives given (Calms (Writable o) labels) (rest (setup, ptr, y))) :
    Gives given (Calms (Writable o) labels) (pointerTo p >>= rest) := by
  refine .bind (fun _ => (grounded_slot scratch).bind fun tmp _ => by cases p <;> exact .ok _)
    fun ⟨setup, ptr, y⟩ hp => h setup ptr y ?_
  obtain ⟨tmp, htmp, hp⟩ := bind_eq_ok.mp hp
  have hsta : Calms (Writable o) labels [sta tmp] := calm_writes (writable_scratch htmp) rfl rfl rfl
  cases p with
  | pointer slot offset =>
    cases hp
    exact calm_quiet rfl rfl rfl
  | stack offset =>
    cases hp
    exact (calm_stackPlus offset).append hsta
  | based slot offset =>
    cases hp
    exact (calm_slotPlus slot offset).append hsta
  | absolute s =>
    cases hp
    exact calm_writes (writable_scratch htmp) rfl rfl rfl

private theorem gives_loadWord (p : Place) : Gives given (Calms (Writable o) labels) (loadWord p) := by
  cases p with
  | stack offset => exact .ok ((calm_stackPlus offset).append (calm_quiet rfl rfl rfl))
  | absolute s => exact .ok (calm_quiet rfl rfl rfl)
  | _ => exact gives_pointerTo fun _ _ _ h => .ok (h.append (calm_quiet rfl rfl rfl))

section Access

variable {frame : Frame} {base : MemBase} {r : Reg} (h : AllPhys given (r :: base.regs))
  (hframe : given → ∀ i, base = .frame i → i < frame.places.length)
include h hframe

private theorem grounded_place (offset : Word) (hg : given) : Grounded True (place frame base offset) := by
  cases base with
  | reg r => exact (h.slot (by simp [MemBase.regs]) hg).bind fun _ _ => .ok _
  | sp => exact .ok _
  | frame index =>
    refine (grounded_resolve (hframe hg index rfl) offset).bind fun slot _ => ?_
    rcases slot with ⟨_ | r, total⟩
    · exact .ok _
    · exact (grounded_slot r).bind fun _ _ => .ok _
  | symbol s => exact (Grounded.orFail rfl _).bind fun _ _ => .ok _

private theorem gives_load (width : Width) (ext : Ir.Extension) (offset : Word) :
    Gives given (Calms (Writable r.register?) labels) (load frame r width ext base offset) := by
  refine .bind (h.slot (by simp)) fun d hd => .bind (grounded_place h hframe offset) fun p _ => ?_
  have hsta {is : List Instruction} (hlevel : spMove? is = some 0#32) (hconfined : is.all isConfined = true)
      (hdest : is.filterMap destSlot? = [d]) : Calms (Writable r.register?) labels is :=
    calm_writes (Reg.writable_slot hd) hlevel hconfined hdest
  cases width with
  | word => exact (gives_loadWord p).andThen fun is h => .ok (h.append (hsta rfl rfl rfl))
  | _ =>
    refine gives_pointerTo fun setup ptr y hsetup => ?_
    cases ext with
    | zero => exact .ok (hsetup.append (hsta rfl rfl rfl))
    | sign =>
      exact .bind (h.number (by simp)) fun n hn =>
        .ok ((hsetup.append (hsta rfl rfl rfl)).append (calm_writes (Reg.writable_number hn) rfl rfl rfl))

private theorem gives_store (width : Width) (offset : Word) :
    Gives given (Calms (Writable o) labels) (store frame r width base offset) := by
  refine .bind (h.slot (by simp)) fun s _ => .bind (grounded_place h hframe offset) fun p _ => ?_
  cases width with
  | word =>
    cases p with
    | stack offset => exact .ok (calm_quiet rfl rfl rfl)
    | absolute sym => exact .ok (calm_quiet rfl rfl rfl)
    | _ => exact gives_pointerTo fun _ _ _ h => .ok (h.append (calm_quiet rfl rfl rfl))
  | _ => exact gives_pointerTo fun _ _ _ h => .ok (h.append (calm_quiet rfl rfl rfl))

end Access

private theorem gives_floatMem {base : FMemBase} (h : AllPhys given (dst :: base.regs))
    (hbase : given → ∀ r, base = .reg r → ∃ n : UInt8, n < 16 ∧ r = .phys (.general n)) (op : FloatMemOp)
    (prec : Precision) : Gives given (Calms (Writable o) labels) (floatMem op dst prec base) := by
  refine .bind (h.number (by simp)) fun f _ => ?_
  cases base with
  | reg r =>
    refine .bind (fun hg => ?_) fun _ _ => .ok (calm_quiet rfl rfl rfl)
    obtain ⟨n, hn, rfl⟩ := hbase hg r rfl
    have hnumber : floatBase (.phys (.general n)) = .ok n := if_pos hn
    exact hnumber ▸ .ok n
  | symbol s => exact .ok (calm_quiet rfl rfl rfl)

private theorem gives_frameAddr (h : AllPhys given [dst]) (hindex : given → index < frame.places.length)
    (offset : Word) : Gives given (Calms (Writable dst.register?) labels) (frameAddr frame dst index offset) := by
  refine .bind (h.slot (by simp)) fun d hd =>
    .bind (fun hg => grounded_resolve (hindex hg) offset) fun place _ => ?_
  have hsta : Calms (Writable dst.register?) labels [sta d] := calm_writes (Reg.writable_slot hd) rfl rfl rfl
  rcases place with ⟨_ | r, total⟩
  · exact .ok ((calm_stackPlus total).append hsta)
  · exact .bind (fun _ => grounded_slot r) fun slot _ => .ok ((calm_slotPlus slot total).append hsta)

private theorem gives_dynAlloc (h : AllPhys given [dst, src]) (align : Nat) :
    Gives given (Tames (Writable dst.register?) labels) (dynAlloc dst src align) := by
  refine .bind (h.slot (by simp)) fun d hd => .bind (h.slot (by simp)) fun s _ => ?_
  dsimp only
  split
  · exact .failed rfl
  · split
    · exact .failed rfl
    · exact .ok (tame_writes (Reg.writable_slot hd) rfl rfl)

private theorem gives_callStack (frame : Frame) (size : Nat) (down : Bool) :
    Gives given (Tames (Writable o) labels) (callStack frame size down) := by
  rw [callStack]
  split
  · exact .ok (tame_quiet rfl rfl)
  · split
    · exact .failed rfl
    · exact .ok (tame_spAdjust _)

private theorem gives_loadAddr {target : AddrTarget} (h : AllPhys given [dst])
    (hnames : given → S.Names target ∧ S.blocks = s.blocks ∧ S.constants = s.pool.length) :
    Gives given (Calms (Writable dst.register?) (s.blocks + s.pool.length)) (loadAddr s dst target) := by
  have hmovr (value : Imm) (hvalue : ∀ l, value = .label l → l < s.blocks + s.pool.length) :
      Gives given (Calms (Writable dst.register?) (s.blocks + s.pool.length))
        (do return [.regAluImm .movr (← dst.slot) value]) := by
    refine .bind (h.slot (by simp)) fun d hd => .ok ⟨fun i hi => ?_, rfl⟩
    obtain rfl := List.mem_singleton.mp hi
    exact ⟨by rintro ⟨⟩, by rintro ⟨⟩, fun _ he => Option.some.inj he ▸ Reg.writable_slot hd,
      fun l he => hvalue l (Option.some.inj he)⟩
  cases target with
  | symbol sym => exact hmovr (.symbol sym) (by simp)
  | block b =>
    rw [loadAddr, Stream.blockLabel?]
    split
    · next hb => exact hmovr (.label b) fun l hl => Imm.label.inj hl ▸ Nat.lt_add_right _ hb
    · next hb => exact ⟨fun hg => absurd ((hnames hg).2.1 ▸ (hnames hg).1) hb, fun _ he => by cases he⟩
  | pool i =>
    rw [loadAddr, Stream.poolLabel?]
    split
    · next hi => exact hmovr (.label (s.blocks + i)) fun l hl => Imm.label.inj hl ▸ Nat.add_lt_add_left hi _
    · next hi => exact ⟨fun hg => absurd ((hnames hg).2.2 ▸ (hnames hg).1) hi, fun _ he => by cases he⟩

theorem gives_compare {cmp : Compare} (h : AllPhys given cmp.regs) :
    Gives given (fun c => Tames W labels c.1) (compare cmp) := by
  cases cmp with
  | int cc lhs rhs =>
    cases rhs with
    | reg r =>
      exact .bind (h.slot (by simp [Compare.regs])) fun _ _ => .bind (h.slot (by simp [Compare.regs])) fun _ _ =>
        .ok (tame_quiet rfl rfl)
    | imm k => exact .bind (h.slot (by simp [Compare.regs])) fun _ _ => .ok (tame_quiet rfl rfl)
  | float cc prec lhs rhs =>
    exact .bind (h.number (by simp [Compare.regs])) fun _ _ => .bind (h.number (by simp [Compare.regs])) fun _ _ =>
      .ok (tame_quiet rfl rfl)

/-- One operation at a time: the instructions write its result and leave the stack pointer where it was. -/
theorem gives_calm (hm : given → m.Resolved S)
    (hS : given → S.blocks = s.blocks ∧ S.constants = s.pool.length ∧ S.objects = frame.places.length)
    (hstay : m.movesSp = false) :
    Gives given (Calms (Writable m.result?) (s.blocks + s.pool.length)) (code s frame m) := by
  have hregs : AllPhys given m.regs := fun hg => (hm hg).regs
  have hframe (i : Nat) (hi : m.frameRef? = some i) (hg : given) : i < frame.places.length :=
    (hS hg).2.2 ▸ (hm hg).frame i hi
  cases m with
  | loadImm dst value => exact gives_loadImm hregs value
  | loadAddr dst target =>
    exact gives_loadAddr hregs fun hg => ⟨(hm hg).address _ _ rfl, (hS hg).1, (hS hg).2.1⟩
  | frameAddr dst index offset => exact gives_frameAddr hregs (hframe index rfl) offset
  | spAddr dst offset =>
    exact .bind (hregs.slot (by simp [Pseudo.regs])) fun d hd =>
      .ok ((calm_stackPlus offset).append (calm_writes (Reg.writable_slot hd) rfl rfl rfl))
  | copy dst src => exact gives_copy hregs
  | alu op dst lhs rhs => exact gives_alu hregs op
  | aluImm op dst lhs imm => exact gives_aluImm hregs op imm
  | mulDiv op dst lhs rhs => exact gives_mulDiv hregs op
  | shift op dst src amount => exact gives_shift hregs op
  | unary op dst src => exact gives_unary hregs op
  | load dst width ext base offset =>
    exact gives_load hregs (fun hg i hi => hframe i (hi ▸ rfl) hg) width ext offset
  | store src width base offset =>
    exact gives_store hregs (fun hg i hi => hframe i (hi ▸ rfl) hg) width offset
  | fload dst prec base => exact gives_floatMem hregs (fun hg r hr => (hm hg).base r (hr ▸ rfl)) .load prec
  | fstore src prec base => exact gives_floatMem hregs (fun hg r hr => (hm hg).base r (hr ▸ rfl)) .store prec
  | falu op prec dst lhs rhs => exact gives_falu hregs op prec
  | funary op prec dst src | fconvert prec dst src =>
    exact .bind (hregs.number (by simp [Pseudo.regs])) fun _ _ => .bind (hregs.number (by simp [Pseudo.regs]))
      fun _ _ => .ok (calm_quiet rfl rfl rfl)
  | ftoi prec dst src => exact gives_floatToSlot hregs .toInt prec
  | floatBits dst src => exact gives_floatToSlot hregs .toBits .single
  | itof prec dst src => exact gives_slotToFloat hregs .fromInt prec
  | bitsFloat dst src => exact gives_slotToFloat hregs .fromBits .single
  | setFrameBase =>
    exact .bind (fun _ => grounded_slot frameBase) fun _ hd => .ok (calm_writes (writable_slot hd) rfl rfl rfl)
  | trap => exact .ok (calm_quiet rfl rfl rfl)
  | selectCc | brCc | jump => exact .ok (calm_quiet rfl rfl rfl)
  | dynAlloc | callStackDown | callStackUp | call | push | pop | spAdjust | restoreSp | ret => cases hstay

/-- What the instructions of an operation may do. -/
theorem gives_code (hm : given → m.Resolved S)
    (hS : given → S.blocks = s.blocks ∧ S.constants = s.pool.length ∧ S.objects = frame.places.length)
    (hret : m.isReturn = false) :
    Gives given (Tames (Writable m.result?) (s.blocks + s.pool.length)) (code s frame m) := by
  have hregs : AllPhys given m.regs := fun hg => (hm hg).regs
  cases hmoves : m.movesSp with
  | false => exact (gives_calm hm hS hmoves).mono fun _ h => h.tame
  | true =>
    cases m with
    | dynAlloc dst size align => exact gives_dynAlloc hregs align
    | callStackDown size => exact gives_callStack frame size true
    | callStackUp size => exact gives_callStack frame size false
    | call target args clobbers =>
      cases target with
      | symbol name => exact .ok (tame_quiet rfl rfl)
      | reg r => exact .bind (hregs.slot (by simp [Pseudo.regs])) fun _ _ => .ok (tame_quiet rfl rfl)
    | push r => exact .bind (fun _ => grounded_slot r) fun _ _ => .ok (tame_quiet rfl rfl)
    | pop r => exact .bind (fun _ => grounded_slot r) fun _ hd => .ok (tame_writes (writable_slot hd) rfl rfl)
    | spAdjust delta => exact .ok (tame_spAdjust delta)
    | restoreSp => exact .bind (fun _ => grounded_slot frameBase) fun _ _ => .ok (tame_quiet rfl rfl)
    | ret results => cases hret
    | _ => cases hmoves

/-- Only branches and selections have branches. -/
theorem unbranching_code (h : code s frame m = .ok is) : unbranching is = true := by
  cases hret : m.isReturn with
  | true =>
    cases m with
    | ret results =>
      cases h
      rfl
    | _ => cases hret
  | false =>
    have htame : Gives False (Tames (Writable m.result?) (s.blocks + s.pool.length)) (code s frame m) :=
      gives_code (S := ⟨[], 0, 0, 0⟩) False.elim False.elim hret
    refine List.all_eq_true.mpr fun i hi => ?_
    have hstays := (htame.each is h i hi).stays
    cases i <;> first | rfl | exact absurd rfl hstays

end Code

end Expansion

end DirectPage
