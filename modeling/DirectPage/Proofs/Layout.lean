import DirectPage.Proofs.Relax
import DirectPage.Proofs.Retain

/-! Finished streams: the code is the instructions and then the constants, branches lead to their
labels, and every address that is left open is named once. -/
namespace DirectPage

def fixupOf (start : Nat) (instr : Instruction) : Option Fixup :=
  match instr.operandOffset?, instr.operand? with
  | some field, some (.symbol target) => some ⟨start + field, .abs32, target, start + instr.size⟩
  | _, _ => none

namespace Stream

/-- Streams that come from an empty one by new and bound labels, instructions, branches and
cleanup. -/
inductive Built : Stream → Prop
  | empty (name : String) (blocks : Nat) (pool : List (List UInt8)) : Built (.empty name blocks pool)
  | newLabel {s} : Built s → Built s.newLabel.2
  | bindLabel {s t} {label : Nat} : Built s → s.bindLabel label = .ok t → Built t
  | emit {s} (instr : Instruction) : Built s → Built (s.emit instr)
  | emitBranch {s} (cond : Option BranchCond) (label : Nat) : Built s → Built (s.emitBranch cond label)
  | clean {s} : Built s → Built s.clean

/-- The byte offset that a label stands for: the start of the instruction that it is bound to, or,
while it is still bound to its constant, the place where the bytes of that constant lie. -/
inductive Denotes (s : Stream) (e : EncodedFunction) : Nat → Nat → Prop
  | instr {label i : Nat} : s.labels[label]? = some (some (.instr i)) → i ≤ e.instructions.length →
      Denotes s e label (startOf e.instructions i)
  | constant {label j offset : Nat} {entry : List UInt8} :
      s.labels[label]? = some (some (.pool (s.pool.take j).flatten.length)) →
      s.poolLabel? j = some label → s.pool[j]? = some entry →
      offset = alignUp (encodeAll e.instructions).length 4 + (s.pool.take j).flatten.length →
      (e.code.drop offset).take entry.length = entry → Denotes s e label offset

def OperandResolved (s : Stream) (e : EncodedFunction) (old new : Instruction) : Prop :=
  match old.operand? with
  | some (.label label) => ∃ offset, Denotes s e label offset ∧
      new = old.mapOperand fun _ => .symbol ⟨e.name, BitVec.ofNat 32 offset⟩
  | _ => new = old

/-- A branch, possibly in long form, whose displacement leads to its label and fits its field. -/
def BranchResolved (s : Stream) (e : EncodedFunction) (i label : Nat) : Prop :=
  ∃ old form field kind target d,
    s.instructions[i]? = some old ∧ (form = old ∨ old.relaxed? = some form) ∧
    form.branchField? = some (field, kind) ∧
    e.instructions[i]? = some (form.withBranchOffset (BitVec.ofInt 32 d)) ∧
    Denotes s e label target ∧ (startOf e.instructions (i + 1) : Int) + d = (target : Int) ∧
    kind.inRange d = true ∧ (BitVec.ofInt 32 d).toInt = d ∧
    signedOf ((e.code.drop (startOf e.instructions i + field)).take kind.width) = d

structure LaidOut (s : Stream) (e : EncodedFunction) : Prop where
  name_eq : e.name = s.name
  length_eq : e.instructions.length = s.instructions.size
  code_eq : ∃ pad < 4, 4 ∣ (encodeAll e.instructions).length + pad ∧
    e.code = encodeAll e.instructions ++
      (if s.pool.flatten = [] then [] else List.replicate pad Opcode.nop.byte ++ s.pool.flatten)
  branches : ∀ i label, (i, label) ∈ s.fixups → BranchResolved s e i label
  operands : ∀ (i : Nat) old, s.instructions[i]? = some old → (∀ label, (i, label) ∉ s.fixups) →
    ∃ new, e.instructions[i]? = some new ∧ OperandResolved s e old new
  fixups_eq : e.fixups = (List.range e.instructions.length).filterMap fun i =>
    e.instructions[i]?.bind (fixupOf (startOf e.instructions i))
  fixups_zero : ∀ f ∈ e.fixups, (e.code.drop f.offset).take 4 = [0, 0, 0, 0]

/-- The label of a constant, if nothing else was bound to it, leads to where its bytes start. -/
def PoolLabels (s : Stream) : Prop :=
  ∀ (label offset : Nat), s.labels[label]? = some (some (.pool offset)) → ∃ j,
    s.poolLabel? j = some label ∧ offset = (s.pool.take j).flatten.length

variable {s : Stream}

theorem PoolLabels.retain (h : s.PoolLabels) (keep : List Bool) : (s.retain keep).PoolLabels := by
  intro label offset hl
  rw [retain_eq] at hl ⊢
  simp only [List.getElem?_map, Option.map_eq_some_iff] at hl
  obtain ⟨_, hd, d, rfl, hm⟩ := hl
  cases d with
  | instr i => cases hm
  | pool at0 =>
    cases hm
    exact h label _ hd

theorem PoolLabels.empty (name : String) (blocks : Nat) (pool : List (List UInt8)) :
    (Stream.empty name blocks pool).PoolLabels := by
  have hpool : ∀ (pool : List (List UInt8)) (start k offset : Nat),
      (poolLabels start pool)[k]? = some (some (.pool offset)) →
        k < pool.length ∧ offset = start + (pool.take k).flatten.length := by
    intro pool
    induction pool with
    | nil => simp [poolLabels]
    | cons entry pool ih =>
      intro start k offset hk
      cases k with
      | zero =>
        obtain rfl : start = offset := by simpa [poolLabels] using hk
        simp
      | succ k =>
        obtain ⟨hlt, rfl⟩ := ih _ k offset (by simpa [poolLabels] using hk)
        exact ⟨by simpa using hlt, by simp [Nat.add_assoc]⟩
  intro label offset hl
  simp only [Stream.empty, List.getElem?_append, List.getElem?_replicate, List.length_replicate] at hl
  split at hl
  · cases hl
  · next hge =>
    obtain ⟨hlt, rfl⟩ := hpool pool 0 _ offset hl
    refine ⟨label - blocks, ?_, by simp [Stream.empty]⟩
    simp only [poolLabel?, Stream.empty, hlt, if_true, Option.some.injEq]
    omega

theorem PoolLabels.define (h : s.PoolLabels) (label : Nat) : (s.define label).PoolLabels := by
  intro l offset hl
  simp only [Stream.define, List.getElem?_set] at hl
  split at hl
  · split at hl <;> cases hl
  · exact h l offset hl

theorem Built.define (label : Nat) (h : Built s) (hl : label < s.labels.length) : Built (s.define label) :=
  h.bindLabel (by rw [Stream.bindLabel, if_pos hl])

theorem Built.emitAll (h : Built s) (is : List Instruction) : Built (s.emitAll is) := by
  induction is generalizing s with
  | nil => exact h
  | cons i is ih => exact ih (h.emit i)

/-- Streams that are built have labels for what they refer to. -/
theorem Built.wellFormed (h : Built s) : s.WellFormed ∧ s.PoolLabels := by
  induction h with
  | empty name blocks pool => exact ⟨.empty name blocks pool, .empty name blocks pool⟩
  | @newLabel s _ ih =>
    refine ⟨ih.1.newLabel, fun label offset hl => ?_⟩
    simp only [Stream.newLabel] at hl
    rw [List.getElem?_append] at hl
    split at hl
    · exact ih.2 label offset hl
    · cases hk : label - s.labels.length <;> simp [hk] at hl
  | @bindLabel s t label _ hb ih =>
    simp only [Stream.bindLabel] at hb
    split at hb
    · cases hb
      exact ⟨ih.1.define label, ih.2.define label⟩
    · cases hb
  | emit instr _ ih => exact ⟨ih.1.emit instr, ih.2⟩
  | emitBranch cond label _ ih => exact ⟨ih.1.emitBranch cond label, ih.2⟩
  | clean _ ih => exact ⟨ih.1.clean, clean_keeps (fun s hs => hs.retain s.keeps) _ ih.2⟩

section Finish

variable {s t : Stream} {e : EncodedFunction} {label stackSize : Nat} {offsets : Array Nat} {relaxing : Bool}
  {i : Instruction}

theorem offsets_getElem? (s : Stream) (i : Nat) : s.offsets[i]? =
    if i ≤ s.instructions.size then some (startOf s.instructions.toList i) else none := by
  rw [offsets, List.getElem?_toArray, offsetsFrom_getElem?]
  simp

theorem offsets_back? (s : Stream) :
    s.offsets.back? = some (encodeAll s.instructions.toList).length := by
  rw [Array.back?_eq_getElem?, offsets_getElem?]
  have hsize : s.offsets.size = s.instructions.size + 1 := by
    have hlen (start : Nat) (is : List Instruction) : (offsetsFrom start is).length = is.length + 1 := by
      induction is generalizing start with
      | nil => rfl
      | cons i is ih => simp [offsetsFrom, ih]
    simp [offsets, hlen]
  simp only [hsize, Nat.add_sub_cancel, Nat.le_refl, if_true, ← startOf_length, Array.length_toList]

/-- Displacements count from the end of the branch. -/
theorem displacement_eq_ok {i : Nat} {instr : Instruction} {d : Int} (hi : i < s.instructions.size) :
    s.displacement s.offsets i label instr = .ok d ↔ ∃ target, s.labelOffset s.offsets label = .ok target ∧
      d = (target : Int) - ((startOf s.instructions.toList i + instr.size : Nat) : Int) := by
  have hget : s.offsets.getD i 0 = startOf s.instructions.toList i := by
    rw [Array.getD_eq_getD_getElem?, offsets_getElem?, if_pos (Nat.le_of_lt hi), Option.getD_some]
  rw [displacement, hget, bind_eq_ok]
  simp only [pure, Except.pure, Except.ok.injEq]
  exact exists_congr fun target => and_congr_right fun _ => eq_comm

/-- The displacements of waiting branches are set, all else stays. -/
private theorem setDisplacements {fs : List (Nat × Nat)} {instrs next : Array Instruction}
    (hfs : fs.Pairwise fun p q => p.1 < q.1) (h : fs.foldlM (s.setDisplacement offsets) instrs = .ok next) :
    next.size = instrs.size ∧ (∀ j : Nat, (∀ label, (j, label) ∉ fs) → next[j]? = instrs[j]?) ∧
      ∀ i label, (i, label) ∈ fs → ∃ instr d, instrs[i]? = some instr ∧
        s.displacement offsets i label instr = .ok d ∧
        next[i]? = some (instr.withBranchOffset (BitVec.ofInt 32 d)) := by
  induction fs generalizing instrs with
  | nil =>
    cases h
    exact ⟨rfl, fun _ _ => rfl, by simp⟩
  | cons f fs ih =>
    obtain ⟨i, label⟩ := f
    obtain ⟨hlt, hfs⟩ := List.pairwise_cons.mp hfs
    have hnot (l : Nat) : (i, l) ∉ fs := fun hm => Nat.lt_irrefl _ (hlt (i, l) hm)
    rw [List.foldlM_cons] at h
    obtain ⟨mid, hm, h⟩ := bind_eq_ok.mp h
    simp only [setDisplacement] at hm
    split at hm
    · cases hm
    · next instr hi =>
      obtain ⟨d, hd, hm⟩ := bind_eq_ok.mp hm
      cases hm
      obtain ⟨hsize, hstay, hset⟩ := ih hfs h
      refine ⟨hsize.trans Array.size_setIfInBounds, fun j hj => ?_, fun j l hf => ?_⟩
      · have hij : i ≠ j := fun he => hj label (he ▸ List.mem_cons_self)
        rw [hstay j (fun l hl => hj l (List.mem_cons_of_mem _ hl)), Array.getElem?_setIfInBounds_ne hij]
      · rcases List.mem_cons.mp hf with he | hf
        · cases he
          refine ⟨instr, d, hi, hd, ?_⟩
          rw [hstay i hnot, Array.getElem?_setIfInBounds_self_of_lt (Array.getElem?_eq_some_iff.mp hi).1]
        · obtain ⟨old, d', ho, hd', hn⟩ := hset j l hf
          have hij : i ≠ j := fun he => hnot l (he ▸ hf)
          rw [Array.getElem?_setIfInBounds_ne hij] at ho
          exact ⟨old, d', ho, hd', hn⟩

theorem mapM_ok {α β : Type} {f : α → Checked β} {xs : List α} {ys : List β}
    (h : xs.mapM f = .ok ys) : ys.length = xs.length ∧
      ∀ (i : Nat) x, xs[i]? = some x → ∃ y, ys[i]? = some y ∧ f x = .ok y := by
  induction xs generalizing ys with
  | nil =>
    cases h
    exact ⟨rfl, by simp⟩
  | cons x xs ih =>
    rw [List.mapM_cons] at h
    obtain ⟨y, hy, h⟩ := bind_eq_ok.mp h
    obtain ⟨zs, hz, h⟩ := bind_eq_ok.mp h
    cases h
    obtain ⟨hlen, hall⟩ := ih hz
    refine ⟨by simp [hlen], fun i x' hx => ?_⟩
    cases i with
    | zero =>
      obtain rfl : x = x' := by simpa using hx
      exact ⟨y, rfl, hy⟩
    | succ i => exact hall i x' (by simpa using hx)

theorem symbolFixups_cons (start : Nat) (instr : Instruction) (is : List Instruction) :
    symbolFixups start (instr :: is) =
      (fixupOf start instr).toList ++ symbolFixups (start + instr.size) is := by
  cases instr with
  | immediate _ imm | absolute _ imm | regAluImm _ _ imm | floatMemAbs _ _ _ imm => cases imm <;> rfl
  | _ => rfl

private theorem symbolFixups_eq (start : Nat) (is : List Instruction) :
    symbolFixups start is = (List.range is.length).filterMap fun i =>
      is[i]?.bind (fixupOf (start + startOf is i)) := by
  induction is generalizing start with
  | nil => rfl
  | cons instr is ih =>
    rw [symbolFixups_cons, ih, List.length_cons, List.range_succ_eq_map, List.filterMap_cons,
      List.filterMap_map]
    simp only [List.getElem?_cons_zero, Option.bind_some, startOf_zero, Nat.add_zero, Function.comp_def,
      List.getElem?_cons_succ, startOf_cons_succ, Nat.add_assoc]
    cases fixupOf start instr <;> rfl

theorem alignUp_four (n : Nat) : n ≤ alignUp n 4 ∧ alignUp n 4 < n + 4 ∧ 4 ∣ alignUp n 4 := by
  simp only [alignUp]
  omega

/-- The bytes of a constant lie behind those of the constants before it. -/
private theorem poolImage_entry {code : List UInt8} {pool : List (List UInt8)} {j : Nat}
    {entry : List UInt8} (hj : pool[j]? = some entry) :
    ((code ++ poolImage code.length pool.flatten).drop
      (alignUp code.length 4 + (pool.take j).flatten.length)).take entry.length = entry := by
  have hsplit : pool.flatten = (pool.take j).flatten ++ (entry ++ (pool.drop (j + 1)).flatten) := by
    obtain ⟨hlt, hget⟩ := List.getElem?_eq_some_iff.mp hj
    conv => lhs; rw [← List.take_append_drop j pool]
    rw [List.flatten_append, List.drop_eq_getElem_cons hlt, hget, List.flatten_cons]
  by_cases hempty : pool.flatten = []
  · rw [hempty] at hsplit
    obtain rfl : entry = [] := by simp_all
    simp
  · have hpad : (code ++ List.replicate (alignUp code.length 4 - code.length) Opcode.nop.byte).length =
        alignUp code.length 4 := by
      have := (alignUp_four code.length).1
      simp only [List.length_append, List.length_replicate]
      omega
    rw [poolImage, if_neg (by simpa using hempty), poolBase, ← List.append_assoc, ← List.drop_drop,
      List.drop_left' hpad, hsplit, List.drop_left, List.take_left]

private theorem denotes_of_labelOffset {is : Array Instruction} (hp : s.PoolLabels)
    (hsizes : e.instructions.map Instruction.size = is.toList.map Instruction.size)
    (hcode : e.code = encodeAll e.instructions ++ poolImage (encodeAll e.instructions).length s.poolBytes)
    {target : Nat}
    (h : { s with instructions := is }.labelOffset { s with instructions := is }.offsets label = .ok target) :
    Denotes s e label target := by
  have hlen : e.instructions.length = is.size := by simpa using congrArg List.length hsizes
  simp only [labelOffset, offsets_back?, Option.getD_some] at h
  split at h
  · next i hl =>
    rw [orFail_eq_ok, offsets_getElem?] at h
    split at h
    · next hle =>
      cases h
      rw [← startOf_congr hsizes]
      exact .instr (by simpa [Option.join_eq_some_iff] using hl) (hlen ▸ hle)
    · cases h
  · next offset hl =>
    cases h
    have hl' : s.labels[label]? = some (some (.pool offset)) := by
      simpa [Option.join_eq_some_iff] using hl
    obtain ⟨j, hj, rfl⟩ := hp label offset hl'
    have hlt : j < s.pool.length := by
      simp only [poolLabel?] at hj
      split at hj
      · assumption
      · cases hj
    have hend : (encodeAll is.toList).length = (encodeAll e.instructions).length := by
      rw [← startOf_length, ← startOf_length, startOf_congr hsizes, hlen, Array.length_toList]
    refine .constant hl' hj (List.getElem?_eq_getElem hlt) (by rw [poolBase, hend]) ?_
    rw [poolBase, hend, hcode]
    exact poolImage_entry (List.getElem?_eq_getElem hlt)
  · cases h

private structure Stages (s t : Stream) (mids : Array Instruction) (e : EncodedFunction) : Prop where
  relaxed_eq : t = { s with instructions := t.instructions }
  lengthened : Lengthened s.fixups s.instructions t.instructions
  reaches : ∀ i label, (i, label) ∈ s.fixups → t.Reaches t.instructions i label
  mids_size : mids.size = t.instructions.size
  mids_stay : ∀ j : Nat, (∀ label, (j, label) ∉ s.fixups) → mids[j]? = t.instructions[j]?
  mids_set : ∀ i label, (i, label) ∈ s.fixups → ∃ instr d, t.instructions[i]? = some instr ∧
    t.displacement t.offsets i label instr = .ok d ∧
    mids[i]? = some (instr.withBranchOffset (BitVec.ofInt 32 d))
  length_eq : e.instructions.length = mids.size
  resolved : ∀ (i : Nat) mid, mids[i]? = some mid → ∃ new, e.instructions[i]? = some new ∧
    t.resolveOperand t.offsets mid = .ok new
  name_eq : e.name = s.name
  fixups_eq : e.fixups = symbolFixups 0 e.instructions
  code_eq : e.code =
    encodeAll e.instructions ++ poolImage (encodeAll e.instructions).length s.poolBytes

private theorem finish_stages (hw : s.WellFormed) (h : s.finish relaxing stackSize = .ok e) :
    ∃ t mids, Stages s t mids e := by
  obtain ⟨t, ht, h⟩ := bind_eq_ok.mp h
  obtain ⟨mids, hmids, h⟩ := bind_eq_ok.mp h
  obtain ⟨news, hnews, h⟩ := bind_eq_ok.mp h
  cases h
  obtain ⟨heq, hlong, hreach⟩ := relax_spec ht
  have hfix : t.fixups = s.fixups := by rw [heq]
  rw [hfix] at hmids
  obtain ⟨hsize, hstay, hset⟩ := setDisplacements hw.fixups_sorted hmids
  obtain ⟨hlen, hall⟩ := mapM_ok hnews
  refine ⟨t, mids, heq, hlong, hreach, hsize, hstay, hset, by simpa using hlen, ?_, by rw [heq], rfl,
    by rw [heq]; rfl⟩
  intro i mid hi
  exact hall i mid (by rw [Array.getElem?_toList, hi])

private theorem size_resolveOperand {new : Instruction} (h : s.resolveOperand offsets i = .ok new) :
    new.size = i.size := by
  simp only [resolveOperand] at h
  split at h
  · cases h
    rfl
  · obtain ⟨imm, -, h⟩ := bind_eq_ok.mp h
    cases h
    exact i.size_mapOperand _

private theorem mapOperand_operand? {imm : Imm} (h : i.operand? = some imm) : i.mapOperand (fun _ => imm) = i := by
  cases i <;> cases h <;> rfl

section Stages

variable {mids : Array Instruction} (st : Stages s t mids e) {label i : Nat}
include st

/-- Behind the long forms no stage changes a size, so offsets stay as they were taken. -/
private theorem Stages.sizes :
    e.instructions.map Instruction.size = t.instructions.toList.map Instruction.size := by
  refine List.ext_getElem? fun i => ?_
  simp only [List.getElem?_map, Array.getElem?_toList]
  cases hi : t.instructions[i]? with
  | none =>
    have h1 := Array.getElem?_eq_none_iff.mp hi
    have h2 := st.length_eq
    have h3 := st.mids_size
    rw [List.getElem?_eq_none (by omega)]
  | some instr =>
    by_cases hf : ∃ label, (i, label) ∈ s.fixups
    · obtain ⟨label, hf⟩ := hf
      obtain ⟨instr', d, hi', -, hmid⟩ := st.mids_set i label hf
      obtain ⟨new, hn, hres⟩ := st.resolved i _ hmid
      cases hi.symm.trans hi'
      rw [hn, Option.map_some, Option.map_some, size_resolveOperand hres,
        Instruction.size_withBranchOffset]
    · have hmid := st.mids_stay i fun label hl => hf ⟨label, hl⟩
      obtain ⟨new, hn, hres⟩ := st.resolved i instr (hmid.trans hi)
      rw [hn, Option.map_some, Option.map_some, size_resolveOperand hres]

private theorem Stages.denotes (hp : s.PoolLabels) {target : Nat} (h : t.labelOffset t.offsets label = .ok target) :
    Denotes s e label target := by
  rw [st.relaxed_eq] at h
  exact denotes_of_labelOffset hp st.sizes st.code_eq h

private theorem Stages.branch (hw : s.WellFormed) (hp : s.PoolLabels) (hf : (i, label) ∈ s.fixups) :
    BranchResolved s e i label := by
  obtain ⟨old, hold, -⟩ := hw.fixups_short i label hf
  obtain ⟨form, hform, hforms⟩ := st.lengthened.2 i old hold
  obtain ⟨_, field, kind, d, hi, hfield, hd, hrange⟩ := st.reaches i label hf
  cases hform.symm.trans hi
  obtain ⟨_, _, hi, hd', hmid⟩ := st.mids_set i label hf
  cases hform.symm.trans hi
  cases hd.symm.trans hd'
  obtain ⟨new, hn, hres⟩ := st.resolved i _ hmid
  have hoperand : (form.withBranchOffset (BitVec.ofInt 32 d)).operand? = none :=
    Instruction.operand?_of_branchField? ((form.branchField?_withBranchOffset _).trans hfield)
  simp only [resolveOperand, hoperand] at hres
  cases hres
  obtain ⟨target, htarget, hd⟩ := (displacement_eq_ok (Array.getElem?_eq_some_iff.mp hform).1).mp hd
  refine ⟨old, form, field, kind, target, d, hold, hforms.imp id And.left, hfield, hn,
    st.denotes hp htarget, ?_, hrange, ?_, ?_⟩
  · rw [startOf_succ hn, startOf_congr st.sizes, Instruction.size_withBranchOffset, hd]
    omega
  · exact FixupKind.toInt_of_inRange (Instruction.isPcRelative_of_branchField? hfield) hrange
  · rw [st.code_eq, encodeAll_field hn _ (by simpa using Instruction.branchField?_le hfield),
      Instruction.signedOf_field hfield hrange]

private theorem Stages.operand (hp : s.PoolLabels) {old : Instruction} (hold : s.instructions[i]? = some old)
    (hf : ∀ label, (i, label) ∉ s.fixups) : ∃ new, e.instructions[i]? = some new ∧ OperandResolved s e old new := by
  obtain ⟨form, hform, hforms⟩ := st.lengthened.2 i old hold
  obtain rfl : form = old := hforms.resolve_right fun ⟨_, label, hl⟩ => hf label hl
  obtain ⟨new, hn, hres⟩ := st.resolved i form (by rw [st.mids_stay i hf, hform])
  refine ⟨new, hn, ?_⟩
  simp only [resolveOperand] at hres
  rw [OperandResolved]
  split at hres
  · next ho =>
    cases hres
    rw [ho]
  · next imm ho =>
    obtain ⟨imm', himm, hres⟩ := bind_eq_ok.mp hres
    cases hres
    rw [ho]
    cases imm with
    | label l =>
      obtain ⟨offset, hoff, himm⟩ := bind_eq_ok.mp himm
      cases himm
      refine ⟨offset, st.denotes hp hoff, ?_⟩
      rw [st.name_eq, st.relaxed_eq]
    | value | symbol =>
      cases himm
      exact mapOperand_operand? ho

private theorem Stages.fixups_zero {f : Fixup} (hf : f ∈ e.fixups) :
    (e.code.drop f.offset).take 4 = [0, 0, 0, 0] := by
  rw [st.fixups_eq, symbolFixups_eq] at hf
  obtain ⟨i, -, hf⟩ := List.mem_filterMap.mp hf
  obtain ⟨instr, hi, hf⟩ := Option.bind_eq_some_iff.mp hf
  simp only [fixupOf] at hf
  split at hf
  · next field target hfield ho =>
    cases hf
    rw [st.code_eq, Nat.zero_add, encodeAll_field hi _ (Instruction.operandOffset?_le hfield),
      Instruction.encode_symbolic hfield ho rfl]
  · cases hf

end Stages

/-- Finishing lays a stream out, whether or not long forms are allowed. -/
theorem WellFormed.laidOut (hw : s.WellFormed) (hp : s.PoolLabels) (h : s.finish relaxing stackSize = .ok e) :
    LaidOut s e := by
  obtain ⟨t, mids, st⟩ := finish_stages hw h
  refine ⟨st.name_eq, by rw [st.length_eq, st.mids_size, st.lengthened.1], ?_,
    fun i label hf => st.branch hw hp hf, fun i old hi hf => st.operand hp hi hf, ?_,
    fun f hf => st.fixups_zero hf⟩
  · obtain ⟨hle, hlt, hdvd⟩ := alignUp_four (encodeAll e.instructions).length
    refine ⟨alignUp (encodeAll e.instructions).length 4 - (encodeAll e.instructions).length, by omega,
      by rwa [Nat.add_sub_cancel' hle], ?_⟩
    simp only [st.code_eq, poolImage, poolBase, List.isEmpty_iff, poolBytes]
  · simpa using st.fixups_eq.trans (symbolFixups_eq 0 e.instructions)

end Finish

/-- A stream that was built by any sequence of operations is laid out as its labels say, if it can
be finished at all. -/
theorem Built.finish_laidOut {s : Stream} {e : EncodedFunction} {relaxing : Bool} {stackSize : Nat}
    (hb : Built s) (h : s.finish relaxing stackSize = .ok e) : LaidOut s e :=
  hb.wellFormed.1.laidOut hb.wellFormed.2 h

/-- Two blocks and two constants. The first branch has to go over more than 127 bytes; the last one
but the return leads to the next instruction and is removed. -/
def farBranch : Stream :=
  let s := (Stream.empty "far" 2 [[1, 2], [3, 4, 5, 6]]).define 0
  let s := (s.emitBranch (some .eq) 1).emit (.immediate .ldaImm (.label 3))
  let s := s.emitAll (List.replicate 21 (.immediate .ldaImm (.value 7#32)))
  let s := (s.define 1).emit (.absolute .jsr (.symbol ⟨"g", 0#32⟩))
  let s := (s.emitBranch none 0).newLabel.2
  (((s.emitBranch none 4).define 4).emit (.implied .rts)).clean

theorem finish_laidOut_farBranch : ∃ e, Built farBranch ∧ farBranch.finish true 0 = .ok e ∧
    e.code.length = 154 ∧ e.fixups.length = 2 ∧ LaidOut farBranch e := by
  have hbuilt : Built farBranch := by
    refine .clean (.emit _ (.define 4 (.emitBranch _ _ (.newLabel (.emitBranch _ _ (.emit _
      (.define 1 (.emitAll (.emit _ (.emitBranch _ _ (.define 0 (.empty _ _ _) ?_))) _) ?_))))) ?_)) <;>
        decide +kernel
  have hcheck : ((farBranch.finish true 0).toOption.map fun e => (e.code.length, e.fixups.length)) =
      some (154, 2) := by decide +kernel
  cases h : farBranch.finish true 0 with
  | error e =>
    rw [h] at hcheck
    cases hcheck
  | ok e =>
    rw [h] at hcheck
    obtain ⟨hcode, hfixups⟩ := Prod.mk.inj (Option.some.inj hcheck)
    exact ⟨e, hbuilt, rfl, hcode, hfixups, hbuilt.finish_laidOut h⟩

end Stream

end DirectPage
