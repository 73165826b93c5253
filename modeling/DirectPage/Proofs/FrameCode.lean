import DirectPage.Proofs.FrameAddress
import DirectPage.Proofs.StreamGrowth

/-! The instructions that open and close a frame.

A function starts with the opening ones, and each of its returns stands behind the closing ones. Cleanup and layout
leave both as they are: none of them is a branch or refers to a label, and none repeats what the one before it did. -/
namespace DirectPage

open Expansion

def frameBaseSlot : UInt8 := 116

def pinned : List Register := [24, 25, 26, 27, 28, 56, 57, 58, 59, 60, 61, 62, 63].map Register.general

def pushCode (ds : List UInt8) : List Instruction := ds.flatMap fun d => [lda d, .implied .pha]

def popCode (ds : List UInt8) : List Instruction := ds.flatMap fun d => [.implied .pla, sta d]

namespace Frame

def pushedSlots (frame : Frame) : List UInt8 := frame.pushed.filterMap Register.slot?

def opening (frame : Frame) : List Instruction :=
  pushCode frame.pushedSlots ++ spAdjust (-BitVec.ofNat 32 frame.stackSize) ++
    (if frame.frameBase then [Instruction.implied .tsx, .direct .stxDp frameBaseSlot] else [])

def closing (frame : Frame) : List Instruction :=
  (if frame.frameBase then [Instruction.direct .ldxDp frameBaseSlot, .implied .txs] else []) ++
    spAdjust (BitVec.ofNat 32 frame.stackSize) ++ popCode frame.pushedSlots.reverse

def Spares (frame : Frame) (d : UInt8) : Prop :=
  ∃ r : Register, r.slot? = some d ∧ r ∉ pinned ∧ (r ∈ calleeSaved → r ∈ frame.saved)

structure Permits (frame : Frame) (i : Instruction) : Prop where
  stays : i ≠ .implied .rts
  slot : ∀ d, i.destSlot? = some d → frame.Spares d

/-- Instructions that start with the opening ones and return only behind the closing ones. -/
inductive Brackets (frame : Frame) : List Instruction → Prop
  | enter : frame.Brackets frame.opening
  | body {is js : List Instruction} : frame.Brackets is → (∀ j ∈ js, frame.Permits j) → frame.Brackets (is ++ js)
  | leave {is : List Instruction} : frame.Brackets is →
    frame.Brackets (is ++ (frame.closing ++ [Instruction.implied .rts]))

end Frame

def Instruction.isFixed (i : Instruction) : Bool :=
  i.relaxed?.isNone && match i.operand? with
    | some (.label _) => false
    | _ => true

def Instruction.isStored : Instruction → Bool
  | direct .staDp _ | implied .txa => true
  | _ => false

theorem Instruction.isStored_of_isRedundant {prev cur : Instruction} (h : isRedundant prev cur = true) :
    prev.isStored = true := by
  obtain ⟨x, rfl, -⟩ | ⟨rfl, -⟩ := isRedundant_cases h <;> rfl

/-- Fixed instructions none of which is redundant behind the one before. `after` tells whether the first one might be
if it is a reload. -/
def steady : Bool → List Instruction → Bool
  | _, [] => true
  | after, i :: is => i.isFixed && !(after && i.isReload) && steady i.isStored is

section Steady

variable {after : Bool} {is js : List Instruction}

theorem steady_cons {i : Instruction} :
    steady after (i :: is) = true ↔
      i.isFixed = true ∧ (after = true → i.isReload = false) ∧ steady i.isStored is = true := by
  rw [steady, Bool.and_eq_true, Bool.and_eq_true, and_assoc]
  cases after <;> simp

theorem steady_of_true (h : steady true is = true) : steady after is = true := by
  cases is with
  | nil => rfl
  | cons i is =>
    obtain ⟨hfixed, hhead, htail⟩ := steady_cons.mp h
    exact steady_cons.mpr ⟨hfixed, fun _ => hhead rfl, htail⟩

theorem steady_append (hi : steady after is = true) (hj : steady true js = true) : steady after (is ++ js) = true := by
  induction is generalizing after with
  | nil => exact steady_of_true hj
  | cons i is ih =>
    obtain ⟨hfixed, hhead, htail⟩ := steady_cons.mp hi
    exact steady_cons.mpr ⟨hfixed, hhead, ih htail⟩

theorem isFixed_of_steady (h : steady after is = true) : ∀ i ∈ is, i.isFixed = true := by
  induction is generalizing after with
  | nil => simp
  | cons i is ih =>
    obtain ⟨hfixed, -, htail⟩ := steady_cons.mp h
    exact List.forall_mem_cons.mpr ⟨hfixed, ih htail⟩

theorem steady_pushCode (ds : List UInt8) : steady false (pushCode ds) = true := by
  induction ds with
  | nil => rfl
  | cons d ds ih => exact ih

theorem steady_popCode (ds : List UInt8) : steady true (popCode ds) = true := by
  induction ds with
  | nil => rfl
  | cons d ds ih => exact ih

theorem steady_spAdjust (delta : Word) : steady true (spAdjust delta) = true := by
  rw [spAdjust]
  split
  · rfl
  · split <;> rfl

theorem Frame.steady_opening (frame : Frame) : steady false frame.opening = true := by
  refine steady_append (steady_append (steady_pushCode _) (steady_spAdjust _)) ?_
  split <;> rfl

theorem Frame.steady_closing (frame : Frame) : steady true (frame.closing ++ [Instruction.implied .rts]) = true := by
  refine steady_append (steady_append (steady_append ?_ (steady_spAdjust _)) (steady_popCode _)) rfl
  split <;> rfl

end Steady

section Cleanup

variable (dropped : List Nat) (labelled : Nat → Bool) {α : Type} {is : List Instruction} {frame : Frame} {s : Stream}

theorem mem_of_mem_kept {keep : List Bool} {xs : List α} {x : α} (h : x ∈ kept keep xs) : x ∈ xs := by
  obtain ⟨⟨y, k⟩, hmem, hk⟩ := List.mem_filterMap.mp h
  obtain ⟨-, hy⟩ := Option.ite_none_right_eq_some.mp hk
  exact Option.some.inj hy ▸ (List.of_mem_zip hmem).1

theorem kept_replicate (xs : List α) : kept (List.replicate xs.length true) xs = xs := by
  induction xs with
  | nil => rfl
  | cons x xs ih => rw [List.length_cons, List.replicate_succ, kept_cons, if_pos rfl, ih]

/-- A sweep takes one instruction after the other. It drops branches to the next instruction, and what is redundant
behind the instruction before. -/
theorem keepFrom_cons (prev : Option Instruction) (i : Nat) (cur : Instruction) :
    ∃ keep, (∀ is, keepFrom dropped labelled prev i (cur :: is) =
        keep :: keepFrom dropped labelled (if keep then some cur else none) (i + 1) is) ∧
      (keep = false → i ∈ dropped ∨ ∃ p, prev = some p ∧ isRedundant p cur = true) := by
  refine ⟨_, fun is => rfl, fun h => ?_⟩
  rw [Bool.and_eq_false_iff, Bool.not_eq_false', Bool.not_eq_false', List.contains_iff_mem] at h
  refine h.imp id fun h => ?_
  cases prev with
  | none => cases h
  | some p => exact ⟨p, rfl, ((Bool.and_eq_true _ _).mp h).1⟩

/-- A sweep goes on behind the first instructions. -/
theorem keepFrom_append (prev : Option Instruction) (i : Nat) (is js : List Instruction) :
    ∃ prev', keepFrom dropped labelled prev i (is ++ js) =
      keepFrom dropped labelled prev i is ++ keepFrom dropped labelled prev' (i + is.length) js := by
  induction is generalizing prev i with
  | nil => exact ⟨prev, rfl⟩
  | cons cur is ih =>
    obtain ⟨keep, hcons, -⟩ := keepFrom_cons dropped labelled prev i cur
    obtain ⟨prev', h⟩ := ih (if keep then some cur else none) (i + 1)
    refine ⟨prev', ?_⟩
    rw [List.cons_append, hcons, hcons, h, List.cons_append, List.length_cons, Nat.add_right_comm, Nat.add_assoc i]

variable {dropped labelled}

theorem keepFrom_steady {after : Bool} (h : steady after is = true) {prev : Option Instruction}
    (hprev : ∀ p, prev = some p → p.isStored = true → after = true) {i : Nat}
    (hdropped : ∀ k < is.length, i + k ∉ dropped) :
    keepFrom dropped labelled prev i is = List.replicate is.length true := by
  induction is generalizing after prev i with
  | nil => rfl
  | cons cur is ih =>
    obtain ⟨-, hhead, htail⟩ := steady_cons.mp h
    obtain ⟨keep, hcons, hdrop⟩ := keepFrom_cons dropped labelled prev i cur
    obtain rfl : keep = true := by
      cases keep with
      | true => rfl
      | false =>
        rcases hdrop rfl with hmem | ⟨p, hp, hred⟩
        · exact absurd hmem (hdropped 0 (Nat.succ_pos _))
        · have hreload := (Instruction.isReload_of_isRedundant hred).1
          rw [hhead (hprev p hp (Instruction.isStored_of_isRedundant hred))] at hreload
          cases hreload
    rw [hcons, List.length_cons, List.replicate_succ]
    refine congrArg (true :: ·) (ih htail (fun p hp he => by cases hp; exact he) fun k hk => ?_)
    have hk' := hdropped (k + 1) (Nat.succ_lt_succ hk)
    rwa [Nat.add_comm k, ← Nat.add_assoc] at hk'

theorem Frame.Brackets.kept (h : frame.Brackets is)
    (hdropped : ∀ k ∈ dropped, ∀ i, is[k]? = some i → i.isFixed = false) :
    frame.Brackets (kept (keepFrom dropped labelled none 0 is) is) := by
  induction h with
  | enter =>
    rw [keepFrom_steady frame.steady_opening (by simp) fun k hk hmem => ?_, kept_replicate]
    · exact .enter
    · rw [Nat.zero_add] at hmem
      have hi := hdropped k hmem _ (List.getElem?_eq_getElem hk)
      rw [isFixed_of_steady frame.steady_opening _ (List.getElem_mem hk)] at hi
      cases hi
  | @body is js his hjs ih =>
    obtain ⟨prev, happend⟩ := keepFrom_append dropped labelled none 0 is js
    rw [happend, kept_append (Stream.keepFrom_length ..)]
    refine .body (ih fun k hk i hi => hdropped k hk i ?_) fun j hj => hjs j (mem_of_mem_kept hj)
    rw [List.getElem?_append_left (List.getElem?_eq_some_iff.mp hi).1, hi]
  | @leave is his ih =>
    obtain ⟨prev, happend⟩ := keepFrom_append dropped labelled none 0 is
      (frame.closing ++ [.implied .rts])
    rw [happend, kept_append (Stream.keepFrom_length ..),
      keepFrom_steady frame.steady_closing (fun _ _ _ => rfl) fun k hk hmem => ?_, kept_replicate]
    · refine .leave (ih fun k hk i hi => hdropped k hk i ?_)
      rw [List.getElem?_append_left (List.getElem?_eq_some_iff.mp hi).1, hi]
    · have hi := hdropped _ hmem _ (by
        rw [Nat.zero_add, List.getElem?_append_right (Nat.le_add_right _ _), Nat.add_sub_cancel_left,
          List.getElem?_eq_getElem hk])
      rw [isFixed_of_steady frame.steady_closing _ (List.getElem_mem hk)] at hi
      cases hi

theorem Frame.Brackets.cleanRound (h : frame.Brackets s.instructions.toList) (hs : s.WellFormed) :
    frame.Brackets s.cleanRound.instructions.toList := by
  rw [Stream.cleanRound, Stream.retain_eq]
  refine h.kept fun k hk i hi => ?_
  simp only [Stream.branchesToNext, List.mem_filterMap, Prod.exists, Option.ite_none_right_eq_some,
    Option.some.injEq] at hk
  obtain ⟨j, label, hfixup, -, rfl⟩ := hk
  obtain ⟨i', hi', hshort⟩ := hs.fixups_short j label hfixup
  rw [Array.getElem?_toList, hi'] at hi
  rw [Instruction.isFixed, ← Option.some.inj hi, Option.isNone_eq_false_iff.mpr hshort, Bool.false_and]

theorem Frame.Brackets.clean (h : frame.Brackets s.instructions.toList) (hs : s.WellFormed) :
    frame.Brackets s.clean.instructions.toList :=
  (Stream.clean_keeps (P := fun s => s.WellFormed ∧ frame.Brackets s.instructions.toList)
    (fun s hs => ⟨hs.1.retain s.keeps_length, hs.2.cleanRound hs.1⟩) s ⟨hs, h⟩).2

end Cleanup

section Layout

/-- What layout makes of an instruction: another operand or displacement at most. -/
structure Instruction.Refits (new old : Instruction) : Prop where
  fixed : old.isFixed = true → new = old
  slot : new.destSlot? = old.destSlot?
  returns : new = .implied .rts → old = .implied .rts

variable {new old : List Instruction} {e : EncodedFunction}

theorem eq_of_refits (h : List.Forall₂ Instruction.Refits new old) (hfixed : ∀ i ∈ old, i.isFixed = true) :
    new = old := by
  induction h with
  | nil => rfl
  | cons hi _ ih => rw [hi.fixed (hfixed _ (by simp)), ih fun i hi => hfixed i (by simp [hi])]

variable {frame : Frame} {s : Stream}

/-- Layout changes only instructions of the body. -/
theorem Frame.Brackets.refits (h : frame.Brackets old) (hnew : List.Forall₂ Instruction.Refits new old) :
    frame.Brackets new := by
  induction h generalizing new with
  | enter =>
    rw [eq_of_refits hnew (isFixed_of_steady frame.steady_opening)]
    exact .enter
  | @body is js _ hjs ih =>
    have hrest := List.forall₂_drop_append _ _ _ hnew
    rw [← List.take_append_drop is.length new]
    refine .body (ih (List.forall₂_take_append _ _ _ hnew)) fun i hi => ?_
    obtain ⟨k, hk, hi⟩ := List.mem_iff_getElem.mp hi
    obtain ⟨hlen, hget⟩ := List.forall₂_iff_get.mp hrest
    have hold := hjs _ (List.getElem_mem (hlen ▸ hk))
    have hrefits : i.Refits js[k] := hi ▸ hget k hk (hlen ▸ hk)
    exact ⟨fun hret => hold.stays (hrefits.returns hret), fun d hd => hold.slot d (hrefits.slot ▸ hd)⟩
  | @leave is _ ih =>
    rw [← List.take_append_drop is.length new,
      eq_of_refits (List.forall₂_drop_append _ _ _ hnew) (isFixed_of_steady frame.steady_closing)]
    exact .leave (ih (List.forall₂_take_append _ _ _ hnew))

private theorem refits_branch {old form : Instruction} (hshort : old.relaxed?.isSome = true)
    (hform : form = old ∨ old.relaxed? = some form) (d : Word) : (form.withBranchOffset d).Refits old := by
  cases old with
  | branch | bra =>
    rcases hform with rfl | hform
    · exact ⟨by rintro ⟨⟩, rfl, by rintro ⟨⟩⟩
    · cases hform
      exact ⟨by rintro ⟨⟩, rfl, by rintro ⟨⟩⟩
  | _ => cases hshort

private theorem refits_operand {old new : Instruction} (h : Stream.OperandResolved s e old new) : new.Refits old := by
  rw [Stream.OperandResolved] at h
  split at h
  · next label hlabel =>
    obtain ⟨offset, -, rfl⟩ := h
    refine ⟨fun hfixed => ?_, by cases old <;> rfl, fun hret => ?_⟩
    · rw [Instruction.isFixed, hlabel, Bool.and_false] at hfixed
      cases hfixed
    · cases old with
      | implied op => cases hlabel
      | _ => cases hret
  · subst h
    exact ⟨fun _ => rfl, rfl, id⟩

theorem Frame.Brackets.laidOut (h : frame.Brackets s.instructions.toList) (hs : s.WellFormed) (hlaid : s.LaidOut e) :
    frame.Brackets e.instructions := by
  refine h.refits (List.forall₂_iff_get.mpr ⟨by simp [hlaid.length_eq], fun k hnew hold => ?_⟩)
  have hk : s.instructions[k]? = some (s.instructions.toList.get ⟨k, hold⟩) := by simp
  by_cases hfixup : ∃ label, (k, label) ∈ s.fixups
  · obtain ⟨label, hlabel⟩ := hfixup
    obtain ⟨i, hi, hshort⟩ := hs.fixups_short k label hlabel
    obtain ⟨old, form, _, _, _, d, hold', hform, -, hget, -⟩ := hlaid.branches k label hlabel
    obtain rfl := Option.some.inj (hi.symm.trans hold')
    have hrefits := refits_branch hshort hform (BitVec.ofInt 32 d)
    rw [List.getElem?_eq_getElem hnew] at hget
    rwa [← Option.some.inj hget, Option.some.inj (hi.symm.trans hk)] at hrefits
  · obtain ⟨new, hget, hres⟩ := hlaid.operands k _ hk fun label hlabel => hfixup ⟨label, hlabel⟩
    rw [List.getElem?_eq_getElem hnew] at hget
    have hrefits := refits_operand hres
    rwa [← Option.some.inj hget] at hrefits

end Layout

section Operations

variable {frame : Frame} {is : List Instruction} {ops : List Pseudo}

theorem Stream.toList_emitAll (s : Stream) (is : List Instruction) :
    (s.emitAll is).instructions.toList = s.instructions.toList ++ is := by
  simp [Stream.emitAll]

def Frame.Emits (frame : Frame) (ops : List Pseudo) (is : List Instruction) : Prop :=
  ∀ folding b s, blockActions frame folding b s ops = .ok (is.map .emit)

theorem Frame.Emits.append {ops' : List Pseudo} {is' : List Instruction} (h : frame.Emits ops is)
    (h' : frame.Emits ops' is') : frame.Emits (ops ++ ops') (is ++ is') := fun folding b s => by
  rw [blockActions_append, h, ok_bind, h', List.map_append]
  rfl

theorem Frame.Emits.expands (h : frame.Emits ops is) (folding : Bool) (b : Nat) (s : Stream) :
    ops.foldlM (expandInst frame folding b) s = .ok (s.emitAll is) := by
  rw [foldlM_expandInst, h, ← Stream.acts_emit]
  rfl

/-- An operation for each of several registers. -/
theorem Frame.emits_each {op : Register → Pseudo} {code : UInt8 → List Instruction}
    (hop : ∀ r d, r.slot? = some d → frame.Emits [op r] (code d)) {rs : List Register}
    (hrs : ∀ r ∈ rs, r.slot?.isSome = true) : frame.Emits (rs.map op) ((rs.filterMap Register.slot?).flatMap code) := by
  induction rs with
  | nil => exact fun _ _ _ => rfl
  | cons r rs ih =>
    obtain ⟨d, hd⟩ := Option.isSome_iff_exists.mp (hrs r List.mem_cons_self)
    rw [List.filterMap_cons_some hd, List.flatMap_cons]
    exact (hop r d hd).append (ih fun r hr => hrs r (List.mem_cons_of_mem _ hr))

theorem Frame.emits_spAdjust {delta : Word} {size : Nat} (hdelta : size = 0 → delta = 0#32) :
    frame.Emits (if 0 < size then [.spAdjust delta] else []) (spAdjust delta) := by
  split
  · exact fun _ _ _ => congrArg Except.ok (List.append_nil _)
  · next hsize =>
    rw [hdelta (Nat.eq_zero_of_not_pos hsize)]
    exact fun _ _ _ => rfl

end Operations

section Slots

theorem Register.slot?_inj {r q : Register} {d : UInt8} (hr : r.slot? = some d) (hq : q.slot? = some d) : r = q := by
  cases r with
  | general n =>
    cases q with
    | general m =>
      obtain ⟨hn, hr⟩ := Option.ite_none_right_eq_some.mp hr
      obtain ⟨hm, hq⟩ := Option.ite_none_right_eq_some.mp hq
      have heq := congrArg UInt8.toNat (Option.some.inj (hr.trans hq.symm))
      rw [UInt8.toNat_mul, UInt8.toNat_mul, show (4 : UInt8).toNat = 4 from rfl] at heq
      have hn : n.toNat < 64 := hn
      have hm : m.toNat < 64 := hm
      rw [UInt8.toNat_inj.mp (show n.toNat = m.toNat by omega)]
    | _ => cases hq
  | _ => cases hr

theorem slots_pushCode (ds : List UInt8) : (pushCode ds).filterMap Instruction.destSlot? = [] := by
  induction ds with
  | nil => rfl
  | cons d ds ih => exact ih

theorem slots_popCode (ds : List UInt8) : (popCode ds).filterMap Instruction.destSlot? = ds := by
  induction ds with
  | nil => rfl
  | cons d ds ih => exact congrArg (d :: ·) ih

theorem slots_spAdjust (delta : Word) : (spAdjust delta).filterMap Instruction.destSlot? = [] := by
  rw [spAdjust]
  split
  · rfl
  · split <;> rfl

variable (frame : Frame)

theorem Frame.slots_opening :
    frame.opening.filterMap Instruction.destSlot? = if frame.frameBase then [frameBaseSlot] else [] := by
  rw [opening, List.filterMap_append, List.filterMap_append, slots_pushCode, slots_spAdjust]
  split <;> rfl

theorem Frame.slots_closing : frame.closing.filterMap Instruction.destSlot? = frame.pushedSlots.reverse := by
  rw [closing, List.filterMap_append, List.filterMap_append, slots_spAdjust, slots_popCode]
  split <;> rfl

theorem rts_notMem_spAdjust (delta : Word) : Instruction.implied .rts ∉ spAdjust delta := by
  rw [spAdjust]
  split
  · simp
  · split <;> simp [withConst]

theorem Frame.rts_notMem_opening : Instruction.implied .rts ∉ frame.opening := by
  cases hbase : frame.frameBase <;> simp [opening, hbase, pushCode, lda, rts_notMem_spAdjust]

theorem Frame.rts_notMem_closing : Instruction.implied .rts ∉ frame.closing := by
  cases hbase : frame.frameBase <;> simp [closing, hbase, popCode, sta, rts_notMem_spAdjust]

end Slots

/-- A write to the frame base by the last of the opening instructions, or by the last instruction before a return. -/
def Frame.SetsBase (frame : Frame) (is : List Instruction) (k : Nat) (i : Instruction) : Prop :=
  i = .direct .stxDp frameBaseSlot ∧ k + 1 = frame.opening.length ∨
    i = .direct .staDp frameBaseSlot ∧ is[k + 1]? = some (.implied .rts)

theorem Frame.SetsBase.append {frame : Frame} {is : List Instruction} {k : Nat} {i : Instruction}
    (h : frame.SetsBase is k i) (js : List Instruction) : frame.SetsBase (is ++ js) k i := by
  rcases h with h | ⟨hi, hnext⟩
  · exact .inl h
  · refine .inr ⟨hi, ?_⟩
    rw [List.getElem?_append_left (List.getElem?_eq_some_iff.mp hnext).1, hnext]

namespace Frame.Brackets

variable {frame : Frame} {is : List Instruction} {k : Nat} {i : Instruction}

theorem opens (h : frame.Brackets is) : frame.opening <+: is := by
  induction h with
  | enter => exact List.prefix_refl _
  | body _ _ ih => exact ih.trans (List.prefix_append _ _)
  | leave _ ih => exact ih.trans (List.prefix_append _ _)

/-- Every return stands behind the closing instructions. -/
theorem closes (h : frame.Brackets is) (hk : is[k]? = some (.implied .rts)) : frame.closing <:+ is.take k := by
  induction h with
  | enter => exact absurd (List.mem_of_getElem? hk) frame.rts_notMem_opening
  | @body is js _ hjs ih =>
    by_cases hlt : k < is.length
    · rw [List.getElem?_append_left hlt] at hk
      rw [List.take_append_of_le_length (Nat.le_of_lt hlt)]
      exact ih hk
    · rw [List.getElem?_append_right (Nat.le_of_not_lt hlt)] at hk
      exact absurd rfl (hjs _ (List.mem_of_getElem? hk)).stays
  | @leave is _ ih =>
    by_cases hlt : k < is.length
    · rw [List.getElem?_append_left hlt] at hk
      rw [List.take_append_of_le_length (Nat.le_of_lt hlt)]
      exact ih hk
    · rw [List.getElem?_append_right (Nat.le_of_not_lt hlt)] at hk
      have hlast : k - is.length = frame.closing.length := by
        have hle := (List.getElem?_eq_some_iff.mp hk).1
        rw [List.length_append, List.length_singleton] at hle
        by_contra hne
        rw [List.getElem?_append_left (by omega)] at hk
        exact frame.rts_notMem_closing (List.mem_of_getElem? hk)
      rw [List.take_append, List.take_of_length_le (Nat.le_of_not_lt hlt), hlast, List.take_left]
      exact List.suffix_append is frame.closing

theorem writes (h : frame.Brackets is) (hi : i ∈ is) {d : UInt8} (hd : i.destSlot? = some d) :
    frame.Spares d ∨ d ∈ frame.pushedSlots := by
  induction h with
  | enter =>
    have hmem := List.mem_filterMap.mpr ⟨i, hi, hd⟩
    rw [slots_opening, List.mem_ite_nil_right, List.mem_singleton] at hmem
    obtain ⟨hbase, rfl⟩ := hmem
    refine .inr (List.mem_filterMap.mpr ⟨DirectPage.frameBase, ?_, rfl⟩)
    simp [pushed, hbase]
  | body _ hjs ih =>
    rcases List.mem_append.mp hi with hi | hi
    · exact ih hi
    · exact .inl ((hjs i hi).slot d hd)
  | leave _ ih =>
    rcases List.mem_append.mp hi with hi | hi
    · exact ih hi
    · rcases List.mem_append.mp hi with hi | hi
      · have hmem := List.mem_filterMap.mpr ⟨i, hi, hd⟩
        rw [slots_closing, List.mem_reverse] at hmem
        exact .inr hmem
      · rw [List.mem_singleton.mp hi] at hd
        cases hd

private theorem opening_eq (hbase : frame.frameBase = true) :
    ∃ front, frame.opening = front ++ [Instruction.direct .stxDp frameBaseSlot] ∧ ∀ i ∈ front, i.destSlot? = none := by
  refine ⟨pushCode frame.pushedSlots ++ spAdjust (-BitVec.ofNat 32 frame.stackSize) ++
    [Instruction.implied .tsx], ?_, ?_⟩
  · rw [opening, if_pos hbase, List.append_assoc _ [_]]
    rfl
  · rw [← List.filterMap_eq_nil_iff, List.filterMap_append, List.filterMap_append, slots_pushCode, slots_spAdjust]
    rfl

private theorem closing_eq (hbase : frame.frameBase = true) (hsaved : DirectPage.frameBase ∉ frame.saved) :
    ∃ front, frame.closing = front ++ [Instruction.direct .staDp frameBaseSlot] ∧
      ∀ i ∈ front, i.destSlot? ≠ some frameBaseSlot := by
  have hslots : frame.pushedSlots.reverse = (frame.saved.filterMap Register.slot?).reverse ++ [frameBaseSlot] := by
    rw [pushedSlots, pushed, if_pos hbase, List.filterMap_append, List.reverse_append]
    rfl
  refine ⟨[Instruction.direct .ldxDp frameBaseSlot, .implied .txs] ++ spAdjust (BitVec.ofNat 32 frame.stackSize) ++
    popCode (frame.saved.filterMap Register.slot?).reverse ++ [Instruction.implied .pla], ?_, fun i hi hd => ?_⟩
  · rw [closing, if_pos hbase, hslots, popCode, popCode, List.flatMap_append, List.append_assoc _ [_],
      ← List.append_assoc _ _ (List.flatMap _ [_])]
    rfl
  · have hmem := List.mem_filterMap.mpr ⟨i, hi, hd⟩
    rw [List.filterMap_append, List.filterMap_append, List.filterMap_append, slots_spAdjust, slots_popCode] at hmem
    have hslot : frameBaseSlot ∈ frame.saved.filterMap Register.slot? := by
      simpa [Instruction.destSlot?, Instruction.writesSlot] using hmem
    obtain ⟨r, hr, hslot⟩ := List.mem_filterMap.mp hslot
    exact hsaved (Register.slot?_inj hslot (show DirectPage.frameBase.slot? = _ from rfl) ▸ hr)

theorem base (h : frame.Brackets is) (hbase : frame.frameBase = true) (hsaved : DirectPage.frameBase ∉ frame.saved)
    (hk : is[k]? = some i) (hd : i.destSlot? = some frameBaseSlot) : frame.SetsBase is k i := by
  induction h with
  | enter =>
    obtain ⟨front, heq, hfront⟩ := opening_eq hbase
    rw [heq] at hk
    by_cases hlt : k < front.length
    · rw [List.getElem?_append_left hlt] at hk
      rw [hfront i (List.mem_of_getElem? hk)] at hd
      cases hd
    · rw [List.getElem?_append_right (by omega), List.getElem?_singleton] at hk
      obtain ⟨hlast, hi⟩ := Option.ite_none_right_eq_some.mp hk
      refine .inl ⟨(Option.some.inj hi).symm, ?_⟩
      rw [heq, List.length_append, List.length_singleton]
      omega
  | @body is js _ hjs ih =>
    by_cases hlt : k < is.length
    · rw [List.getElem?_append_left hlt] at hk
      exact (ih hk).append js
    · rw [List.getElem?_append_right (by omega)] at hk
      obtain ⟨r, hr, -, hkept⟩ := (hjs i (List.mem_of_getElem? hk)).slot _ hd
      obtain rfl : r = DirectPage.frameBase := Register.slot?_inj hr rfl
      exact absurd (hkept (by decide)) hsaved
  | @leave is _ ih =>
    by_cases hlt : k < is.length
    · rw [List.getElem?_append_left hlt] at hk
      exact (ih hk).append _
    · obtain ⟨front, heq, hfront⟩ := closing_eq hbase hsaved
      rw [heq, List.append_assoc, List.getElem?_append_right (by omega)] at hk
      by_cases hfrontLt : k - is.length < front.length
      · rw [List.getElem?_append_left hfrontLt] at hk
        exact absurd hd (hfront i (List.mem_of_getElem? hk))
      · rw [List.getElem?_append_right (by omega)] at hk
        -- two instructions are left: the last pop and the return, which writes nothing
        cases hj : k - is.length - front.length with
        | zero =>
          rw [hj] at hk
          refine .inr ⟨(Option.some.inj hk).symm, ?_⟩
          rw [heq, List.append_assoc, List.getElem?_append_right (by omega), List.getElem?_append_right (by omega),
            show k + 1 - is.length - front.length = 1 by omega]
          rfl
        | succ j =>
          rw [hj] at hk
          rw [List.mem_singleton.mp (List.mem_of_getElem? (l := [Instruction.implied .rts]) hk)] at hd
          cases hd

end Frame.Brackets

end DirectPage
