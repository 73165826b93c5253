import DirectPage.Proofs.CodeScope
import DirectPage.Proofs.Provenance

/-! Flag discipline: on every way to a conditional branch, the flags are those of a compare that belongs to the same
operation, both before and after cleanup. -/
namespace DirectPage

def Instruction.isMove : Instruction → Bool
  | regAlu .movr _ _ | float .mov _ _ _ => true
  | _ => false

def Instruction.isConditional : Instruction → Bool
  | branch .. | branchLong .. => true
  | _ => false

def Instruction.SetsFlags (i : Instruction) : Prop := ∃ m m' : Machine, m.exec i = .ok m' ∧ m'.flags ≠ m.flags

def Pseudo.isTest : Pseudo → Bool
  | brCc .. | selectCc .. => true
  | _ => false

def Routine.TestAt (f : Routine) (o : Nat × Nat) : Prop := ∃ m, Allocation.opAt? f o.1 o.2 = some m ∧ m.isTest = true

/-! Instructions and flags. -/

namespace Instruction

variable {i : Instruction}

theorem setsFlags_of_isCompare (h : i.isCompare = true) (hs : i.symbolic? = none) : i.SetsFlags := by
  have hgen (m : Machine) (after : Flags)
      (he : ∀ before, { m with flags := before }.exec i = .ok { m with flags := after }) :
      i.SetsFlags := by
    refine ⟨{ m with flags := { after with z := !after.z } }, _, he _, fun heq => ?_⟩
    have hz : after.z = !after.z := congrArg Flags.z heq
    cases hafter : after.z <;> simp [hafter] at hz
  cases i with
  | immediate op imm =>
    cases op with
    | cmpImm =>
      cases imm with
      | value k => exact hgen {} (Flags.compare 0#32 k) fun _ => rfl
      | symbol s => cases hs
      | label l => cases hs
    | _ => cases h
  | regAlu op dst src =>
    cases op with
    | cmpr =>
      let m : Machine := {}
      refine hgen m (Flags.compare (m.memory.word dst.toNat) (m.memory.word src.toNat)) fun before => ?_
      simp only [Machine.exec, Machine.regAlu, Machine.readWord_slot, ok_bind]
      rfl
    | _ => cases h
  | float op prec dst src =>
    cases op with
    | cmp =>
      let m : Machine := {}
      exact hgen m (Flags.floatCompare (m.fpr dst).toFloat (m.fpr src).toFloat) fun _ => rfl
    | _ => cases h
  | _ => cases h

theorem not_setsFlags_of_isBranch (h : i.isBranch = true) : ¬ i.SetsFlags := by
  rintro ⟨m, m', he, hne⟩
  cases i with
  | branch cond offset | branchLong cond offset =>
    simp only [Machine.exec, Except.ok.injEq] at he
    split at he <;> exact hne (he ▸ rfl)
  | bra offset | brl offset => exact hne (Except.ok.inj he ▸ rfl)
  | _ => cases h

theorem not_setsFlags_of_isMove (h : i.isMove = true) : ¬ i.SetsFlags := by
  rintro ⟨m, m', he, hne⟩
  cases i with
  | regAlu op dst src =>
    cases op with
    | movr =>
      obtain ⟨w, -, he⟩ := bind_eq_ok.mp he
      obtain ⟨d, -, he⟩ := bind_eq_ok.mp he
      rw [Machine.writeWord_slot] at he
      exact hne (Except.ok.inj he ▸ rfl)
    | _ => cases h
  | float op prec dst src =>
    cases op with
    | mov => exact hne (Except.ok.inj he ▸ rfl)
    | _ => cases h
  | _ => cases h

end Instruction

/-! Ways through a stream. -/

namespace Stream

def Goes (s : Stream) (i j : Nat) : Prop := ∃ w m m', (s.step w (.running i m)).2 = .running j m'

/-- Ways from the first instruction: the places passed, and the place that control has come to. -/
inductive Walk (s : Stream) : List Nat → Nat → Prop
  | entry : Walk s [] 0
  | step {done : List Nat} {i j : Nat} : Walk s done i → s.Goes i j → Walk s (done ++ [i]) j

variable {s : Stream} {m' m : Machine} {i j : Nat} {w : World}

private theorem callTo_running {target : Word} (h : (w.callTo i target m).2 = .running j m') : j = i + 1 := by
  rw [World.callTo] at h
  cases hc : w.call target m with
  | error e =>
    rw [hc] at h
    cases h
  | ok m1 =>
    rw [hc] at h
    cases h
    rfl

private theorem perform_running {instr : Instruction} (h : (w.perform i instr m).2 = .running j m') : j = i + 1 := by
  rw [World.perform] at h
  cases hflow : instr.flow with
  | call target =>
    rw [hflow] at h
    dsimp only at h
    split at h
    · exact callTo_running h
    · cases h
  | callVia slot =>
    rw [hflow] at h
    exact callTo_running h
  | ret =>
    rw [hflow] at h
    dsimp only at h
    split at h <;> cases h
  | trap | away =>
    rw [hflow] at h
    cases h
  | next =>
    rw [hflow] at h
    dsimp only at h
    split at h
    · cases h
      rfl
    · cases h

/-- Control goes to the next place or to one that has a label. -/
theorem Goes.cases (h : s.Goes i j) : j = i + 1 ∨ s.isLabelled j = true := by
  obtain ⟨w, m, m', h⟩ := h
  rw [step] at h
  cases hi : s.instructions[i]? with
  | none =>
    rw [hi] at h
    cases h
  | some instr =>
    rw [hi] at h
    dsimp only at h
    cases hl : s.fixups.lookup i with
    | some label =>
      rw [hl] at h
      dsimp only [branch] at h
      split at h
      · split at h
        · next p hp =>
          cases h
          exact .inr (isLabelled_of_labelPlace? hp).1
        · cases h
      · cases h
        exact .inl rfl
    | none =>
      rw [hl] at h
      exact .inl (perform_running h)

/-- A way to a place that lies behind another one has passed that place last but for those in between. -/
theorem Walk.passes {done : List Nat} (h : s.Walk done i) (hj : j < i)
    (hl : ∀ k, j < k → k ≤ i → s.isLabelled k = false) : ∃ past, done = past ++ List.range' j (i - j) := by
  induction h with
  | entry => omega
  | @step done k i _ hgoes ih =>
    have hi := hl i hj (Nat.le_refl _)
    obtain rfl : i = k + 1 := hgoes.cases.resolve_right (by rw [hi]; exact Bool.false_ne_true)
    rcases Nat.lt_or_eq_of_le (Nat.le_of_lt_succ hj) with hlt | rfl
    · obtain ⟨past, rfl⟩ := ih hlt fun q hq hqk => hl q hq (by omega)
      refine ⟨past, ?_⟩
      rw [List.append_assoc, show k + 1 - j = (k - j) + 1 by omega, List.range'_1_concat,
        show j + (k - j) = k by omega]
    · exact ⟨done, by rw [Nat.add_sub_cancel_left]; rfl⟩

def ComparesFor {ι : Type} (origins : List ι) (o : ι) (j : Nat) (c : Instruction) : Prop :=
  c.isCompare = true ∧ c.SetsFlags ∧ origins[j]? = some o

def LeavesFor {ι : Type} (origins : List ι) (o : ι) (k : Nat) (c : Instruction) : Prop :=
  (c.isMove = true ∨ c.isBranch = true) ∧ origins[k]? = some o

def Paired {ι : Type} (P : ι → Prop) (s : Stream) (origins : List ι) : Prop :=
  ∀ i instr, s.instructions[i]? = some instr → instr.isConditional = true →
    ∃ o, origins[i]? = some o ∧ P o ∧ s.Behind (ComparesFor origins o) (LeavesFor origins o) i

end Stream

/-- Whether all conditional branches stand behind a compare, past copies and branches only. The first argument says
whether there may be any, the second whether the first place stands so. -/
def Action.pairs (test : Bool) : Bool → List Action → Bool
  | _, [] => true
  | fresh, .emit i :: rest =>
    !i.isBranch && pairs test (i.isCompare && i.symbolic?.isNone || fresh && i.isMove) rest
  | fresh, .branch cond _ :: rest => (cond.isNone || test && fresh) && pairs test fresh rest
  | fresh, .newLabel :: rest => pairs test fresh rest
  | _, .define _ :: rest => pairs test false rest

namespace Stream

section Acts

variable {ι : Type} {P : ι → Prop} {s t : Stream} {origins : List ι} {o : ι} {j : Nat}

private theorem getElem?_append_of_some (h : origins[j]? = some o) (more : List ι) :
    (origins ++ more)[j]? = some o := by
  rw [List.getElem?_append_left (List.getElem?_eq_some_iff.mp h).1, h]

variable {c instr : Instruction}

private theorem ComparesFor.append (h : ComparesFor origins o j c) (more : List ι) :
    ComparesFor (origins ++ more) o j c :=
  ⟨h.1, h.2.1, getElem?_append_of_some h.2.2 more⟩

private theorem LeavesFor.append {k : Nat} (h : LeavesFor origins o k c) (more : List ι) :
    LeavesFor (origins ++ more) o k c :=
  ⟨h.1, getElem?_append_of_some h.2 more⟩

/-- Changes behind a branch leave it paired. -/
private theorem Paired.extend (hp : s.Paired P origins)
    (hget : ∀ k < s.instructions.size, t.instructions[k]? = s.instructions[k]?)
    (hl : ∀ k < s.instructions.size, t.isLabelled k = true → s.isLabelled k = true) (more : List ι) {i : Nat}
    (hi : t.instructions[i]? = some instr) (hlt : i < s.instructions.size) (hc : instr.isConditional = true) :
    ∃ o, (origins ++ more)[i]? = some o ∧ P o ∧
      t.Behind (ComparesFor (origins ++ more) o) (LeavesFor (origins ++ more) o) i := by
  rw [hget i hlt] at hi
  obtain ⟨o, ho, hP, hb⟩ := hp i instr hi hc
  exact ⟨o, getElem?_append_of_some ho more, hP, hb.extend (fun k hk => hget k (by omega))
    (fun k hk => hl k (by omega)) (fun _ _ _ h => h.append more) fun _ _ _ h => h.append more⟩

/-- A label at the end changes nothing for the branches before. -/
theorem Paired.define (hp : s.Paired P origins) (label : Nat) : (s.define label).Paired P origins := by
  intro k instr hk hc
  have hlt : k < s.instructions.size := (Array.getElem?_eq_some_iff.mp hk).1
  have := hp.extend (t := s.define label) (fun _ _ => rfl) (fun k hk hl => isLabelled_define hl hk) [] hk hlt hc
  rwa [List.append_nil] at this

private theorem behind_push (hw : s.WellFormed) (hlen : origins.length = s.instructions.size)
    (ht : t.instructions = s.instructions.push instr) (hl : t.labels = s.labels)
    (h : (instr.isCompare = true ∧ instr.SetsFlags) ∨
      s.Behind (ComparesFor origins o) (LeavesFor origins o) s.instructions.size ∧
        (instr.isMove = true ∨ instr.isBranch = true)) :
    t.Behind (ComparesFor (origins ++ [o]) o) (LeavesFor (origins ++ [o]) o) t.instructions.size := by
  have hlast : (origins ++ [o])[s.instructions.size]? = some o := by
    rw [← hlen, List.getElem?_concat_length]
  exact Behind.pushEnd hw ht hl (h.imp (fun hc => ⟨hc.1, hc.2, hlast⟩) fun hb => ⟨hb.1, hb.2, hlast⟩)
    (fun _ _ _ h => h.append [o]) fun _ _ _ h => h.append [o]

/-- Changes made for one operation keep branches and compares paired. -/
theorem Paired.acts {test : Bool} (ho : test = true → P o) (hw : s.WellFormed)
    (hlen : origins.length = s.instructions.size) (hp : s.Paired P origins) (fresh : Bool) (as : List Action)
    (hf : fresh = true → s.Behind (ComparesFor origins o) (LeavesFor origins o) s.instructions.size)
    (h : Action.pairs test fresh as = true) :
    ∃ n, (s.acts as).instructions.size = s.instructions.size + n ∧
      (s.acts as).Paired P (origins ++ List.replicate n o) := by
  induction as generalizing s origins fresh with
  | nil => exact ⟨0, rfl, by rwa [List.replicate_zero, List.append_nil]⟩
  | cons a as ih =>
    -- an action that pushes an instruction adds one origin
    have hpush {t : Stream} {fresh' : Bool} (hact : s.act a = t)
        (hsize : t.instructions.size = s.instructions.size + 1) (hpaired : t.Paired P (origins ++ [o]))
        (hfresh : fresh' = true →
          t.Behind (ComparesFor (origins ++ [o]) o) (LeavesFor (origins ++ [o]) o) t.instructions.size)
        (hpairs : Action.pairs test fresh' as = true) :
        ∃ n, (s.acts (a :: as)).instructions.size = s.instructions.size + n ∧
          (s.acts (a :: as)).Paired P (origins ++ List.replicate n o) := by
      obtain ⟨n, hn, hpn⟩ := ih (s := t) (hact ▸ hw.act a) (by rw [List.length_append, hlen, hsize]; rfl) hpaired
        fresh' hfresh hpairs
      refine ⟨n + 1, ?_, ?_⟩
      · rw [acts_cons, hact, hn, hsize]
        omega
      · rw [acts_cons, hact, List.replicate_succ, List.append_cons]
        exact hpn
    cases a with
    | emit i =>
      simp only [Action.pairs, Bool.and_eq_true, Bool.not_eq_true'] at h
      obtain ⟨hplain, h⟩ := h
      refine hpush rfl (Array.size_push _) (fun k instr hk hc => ?_) (fun hfresh => ?_) h
      · by_cases hlt : k < s.instructions.size
        · exact hp.extend (t := s.emit i) (push_getElem? i) (fun _ _ hl => hl) [o] hk hlt hc
        · simp only [act, emit, Array.getElem?_push] at hk
          split at hk
          · cases hk
            cases i <;> cases hc <;> cases hplain
          · rw [Array.getElem?_eq_none (by omega)] at hk
            cases hk
      · simp only [Bool.or_eq_true, Bool.and_eq_true, Option.isNone_iff_eq_none] at hfresh
        refine behind_push hw hlen (t := s.emit i) rfl rfl (hfresh.imp (fun hc => ?_) fun hm => ?_)
        · exact ⟨hc.1, Instruction.setsFlags_of_isCompare hc.1 hc.2⟩
        · exact ⟨hf hm.1, .inl hm.2⟩
    | branch cond label =>
      simp only [Action.pairs, Bool.and_eq_true, Bool.or_eq_true] at h
      obtain ⟨hcond, h⟩ := h
      refine hpush rfl (Array.size_push _) (fun k instr hk hc => ?_) (fun hfresh => ?_) h
      · by_cases hlt : k < s.instructions.size
        · exact hp.extend (t := s.emitBranch cond label) (push_getElem? _) (fun _ _ hl => hl) [o] hk hlt hc
        · simp only [act, emitBranch, Array.getElem?_push] at hk
          split at hk
          · next he =>
            subst he
            rcases hcond with hnone | ⟨htest, hfresh⟩
            · rw [Option.isNone_iff_eq_none] at hnone
              subst hnone
              cases hk
              cases hc
            · refine ⟨o, by rw [← hlen, List.getElem?_concat_length], ho htest, ?_⟩
              exact (hf hfresh).extend (push_getElem? _) (fun _ _ hl => hl) (fun _ _ _ h => h.append [o])
                fun _ _ _ h => h.append [o]
          · rw [Array.getElem?_eq_none (by omega)] at hk
            cases hk
      · refine behind_push hw hlen (t := s.emitBranch cond label) rfl rfl (.inr ⟨hf hfresh, .inr ?_⟩)
        cases cond <;> rfl
    | newLabel =>
      refine ih hw.newLabel hlen (fun k instr hk hc => ?_) fresh (fun hfresh => ?_) h
      · have hlt : k < s.instructions.size := (Array.getElem?_eq_some_iff.mp hk).1
        have := hp.extend (t := s.newLabel.2) (fun _ _ => rfl) (fun _ _ => isLabelled_newLabel) [] hk hlt hc
        rwa [List.append_nil] at this
      · exact (hf hfresh).extend (fun _ _ => rfl) (fun _ _ => isLabelled_newLabel)
          (fun _ _ _ hc => hc) fun _ _ _ hr => hr
    | define label =>
      exact ih (hw.define label) hlen (hp.define label) false (fun hfresh => by cases hfresh) h

end Acts

end Stream

namespace Expansion

section Pairs

open DirectPage.Action

variable {is : List Instruction}

private theorem pairs_emit (test fresh : Bool) (h : unbranching is = true) (label : Nat) :
    pairs test fresh (is.map .emit) = true ∧ pairs test fresh (is.map Action.emit ++ [Action.define label]) = true := by
  induction is generalizing fresh with
  | nil => exact ⟨rfl, rfl⟩
  | cons i is ih =>
    simp only [unbranching, List.all_cons, Bool.and_eq_true] at h
    simp only [List.map_cons, List.cons_append, pairs, Bool.and_eq_true]
    exact ⟨⟨h.1, (ih _ h.2).1⟩, h.1, (ih _ h.2).2⟩

private theorem pairs_compare (h : Compares is) (test fresh : Bool) (rest : List Action) :
    pairs test fresh (is.map .emit ++ rest) = pairs test true rest := by
  cases h <;> rfl

private theorem pairs_move {dst : Reg} (h : Moves dst is) (test : Bool) (rest : List Action) :
    pairs test true (is.map .emit ++ rest) = pairs test true rest := by
  cases h <;> rfl

private theorem unbranching_move {dst : Reg} (h : Moves dst is) : unbranching is = true := by
  cases h <;> rfl

private theorem pairs_plan (plan : Plan) (target skip : Nat) (rest : List Action) :
    pairs true true (planActions plan target skip ++ rest) = pairs true false rest := by
  simp only [planActions, List.cons_append, pairs, List.append_assoc, List.nil_append]
  induction plan with
  | nil => rfl
  | cons step plan ih => simpa [pairs] using ih

/-- Expansion puts every conditional branch behind a compare of the same operation. -/
private theorem pairs_actions {frame : Frame} {folding : Bool} {b : Nat} {s : Stream} {m : Pseudo}
    {as : List Action} (h : actions frame folding b s m = .ok as) : pairs m.isTest false as = true := by
  cases expands_actions h with
  | code his => exact (pairs_emit _ false (unbranching_code his) 0).1
  | move his => exact (pairs_emit _ false (unbranching_move his) 0).1
  | select hc hfirst hsecond =>
    simp only [List.append_assoc, List.cons_append]
    rw [pairs_compare hc, pairs, pairs_move hfirst, Pseudo.isTest, pairs_plan]
    exact (pairs_emit _ false (unbranching_move hsecond) _).2
  | branch hc =>
    rw [pairs_compare hc, ← List.append_nil (planActions _ _ _), Pseudo.isTest, pairs_plan]
    rfl
  | fall | jump => rfl

end Pairs

section Trace

variable {frame : Frame} {folding : Bool} {P : Nat × Nat → Prop} {traced' traced : Stream × List (Nat × Nat)} {b : Nat}

structure Tracked (P : Nat × Nat → Prop) (traced : Stream × List (Nat × Nat)) : Prop where
  wellFormed : traced.1.WellFormed
  length : traced.2.length = traced.1.instructions.size
  paired : traced.1.Paired P traced.2

/-- The instructions of an operation keep branches and compares paired. -/
theorem Tracked.traceInst {op : Pseudo × Nat} (ht : Tracked P traced) (hP : op.1.isTest = true → P (b, op.2))
    (h : traceInst frame folding b traced op = .ok traced') : Tracked P traced' := by
  obtain ⟨s, hs, h⟩ := bind_eq_ok.mp h
  cases h
  rw [expandInst_eq] at hs
  cases ha : actions frame folding b traced.1 op.1 with
  | error e =>
    rw [ha] at hs
    cases hs
  | ok as =>
    rw [ha] at hs
    cases hs
    obtain ⟨n, hn, hp⟩ := ht.paired.acts hP ht.wellFormed ht.length false as (fun hf => by cases hf) (pairs_actions ha)
    have hsub : (traced.1.acts as).instructions.size - traced.1.instructions.size = n := by omega
    refine ⟨ht.wellFormed.acts as, ?_, ?_⟩
    · change (traced.2 ++ List.replicate _ _).length = _
      rw [hsub, List.length_append, List.length_replicate, ht.length, hn]
    · change (traced.1.acts as).Paired P (traced.2 ++ List.replicate _ _)
      rw [hsub]
      exact hp

private theorem Tracked.foldlM {ops : List (Pseudo × Nat)} (ht : Tracked P traced)
    (hP : ∀ op ∈ ops, op.1.isTest = true → P (b, op.2))
    (h : ops.foldlM (Expansion.traceInst frame folding b) traced = .ok traced') : Tracked P traced' := by
  induction ops generalizing traced with
  | nil =>
    cases h
    exact ht
  | cons op ops ih =>
    rw [List.foldlM_cons, bind_eq_ok] at h
    obtain ⟨mid, hm, h⟩ := h
    exact ih (ht.traceInst (hP op List.mem_cons_self) hm) (fun q hq => hP q (List.mem_cons_of_mem _ hq)) h

private theorem Tracked.traceBlocks {blocks : List (List Pseudo)} (ht : Tracked P traced)
    (hP : ∀ (c k : Nat) block m, blocks[c]? = some block → block[k]? = some m → m.isTest = true → P (b + c, k))
    (h : traceBlocks frame folding traced b blocks = .ok traced') : Tracked P traced' := by
  induction blocks generalizing traced b with
  | nil =>
    cases h
    exact ht
  | cons block rest ih =>
    obtain ⟨mid, hm, h⟩ := bind_eq_ok.mp h
    obtain ⟨label, -, hm⟩ := bind_eq_ok.mp hm
    have hdefine : Tracked P (traced.1.define label, traced.2) :=
      ⟨ht.wellFormed.define label, ht.length, ht.paired.define label⟩
    refine ih (hdefine.foldlM (fun op hop htest => ?_) hm) (fun c k blk m hc hk htest => ?_) h
    · exact hP 0 op.2 block op.1 rfl (List.mem_zipIdx_iff_getElem?.mp hop) htest
    · rw [Nat.add_right_comm, Nat.add_assoc]
      exact hP (c + 1) k blk m hc hk htest

end Trace

end Expansion

variable {s : Stream} {origins : List (Nat × Nat)}

theorem Stream.Paired.cleanRound {ι : Type} {P : ι → Prop} {origins : List ι} (hw : s.WellFormed)
    (hlen : origins.length = s.instructions.size) (hp : s.Paired P origins) :
    s.cleanRound.Paired P (kept s.keeps origins) := by
  have hk := s.keeps_length
  have hdrop (i : Nat) : s.keeps[i]? = some false → s.Superfluous i := superfluous_of_keeps
  have horigin {j : Nat} (hj : s.keeps[j]? = some true) :
      (kept s.keeps origins)[newPlace s.keeps j]? = origins[j]? := kept_getElem? (by omega) hj
  intro i' instr hi hc
  have hlt : i' < s.keeps.count true := by
    have := (Array.getElem?_eq_some_iff.mp hi).1
    rwa [Stream.cleanRound, size_retain hk, newPlace_of_le (by omega)] at this
  obtain ⟨i, hki, rfl⟩ := exists_newPlace hlt
  rw [Stream.cleanRound, instructions_retain hk hki] at hi
  obtain ⟨o, ho, hP, hb⟩ := hp i instr hi hc
  refine ⟨o, by rw [horigin hki, ho], hP, hb.retain hk hki (fun j c hj hc => ?_) fun k c hkk hc => ?_⟩
  · have hkj := keep_of_isCompare hw hk hdrop hj hc.1
    exact ⟨hkj, hc.1, hc.2.1, by rw [horigin hkj, hc.2.2]⟩
  · exact ⟨hc.1, by rw [horigin hkk, hc.2]⟩

theorem Expansion.Tracked.cleanRound {P : Nat × Nat → Prop} (h : Tracked P (s, origins)) :
    Tracked P (s.cleanRound, kept s.keeps origins) := by
  refine ⟨h.wellFormed.retain s.keeps_length, ?_, h.paired.cleanRound h.wellFormed h.length⟩
  have hk := s.keeps_length
  have hlen : origins.length = s.instructions.size := h.length
  change (kept s.keeps origins).length = s.cleanRound.instructions.size
  rw [Stream.cleanRound, Stream.size_retain hk, kept_length (by omega), newPlace_of_le (by omega)]

/-- On every way to a conditional branch, the last instruction that can change a flag is a compare. It belongs to the
same operation as the branch, a test, and so does all that comes in between: copies and branches, which leave the
flags as they are. -/
def Stream.Disciplined (s : Stream) (f : Routine) (origins : List (Nat × Nat)) : Prop :=
  ∀ done i instr, s.Walk done i → s.instructions[i]? = some instr → instr.isConditional = true →
    ∃ (o : Nat × Nat) (past : List Nat) (j : Nat) (c : Instruction) (between : List Nat),
      origins[i]? = some o ∧ f.TestAt o ∧
      done = past ++ j :: between ∧ s.instructions[j]? = some c ∧ origins[j]? = some o ∧
      c.isCompare = true ∧ c.SetsFlags ∧
      ∀ k ∈ between, ∃ instr, s.instructions[k]? = some instr ∧ origins[k]? = some o ∧
        (instr.isMove = true ∨ instr.isBranch = true) ∧ ¬ instr.SetsFlags

/-- Where branches and compares are paired, every way keeps the discipline. -/
theorem Stream.Paired.disciplined {f : Routine} (h : s.Paired f.TestAt origins) : s.Disciplined f origins := by
  intro done i instr hwalk hi hc
  obtain ⟨o, ho, htest, j, hj, ⟨c, hcj, hcmp, hsets, hoj⟩, hbetween, hlabels⟩ := h i instr hi hc
  obtain ⟨past, rfl⟩ := hwalk.passes hj hlabels
  have hrange : List.range' j (i - j) = j :: List.range' (j + 1) (i - (j + 1)) := by
    rw [show i - j = (i - (j + 1)) + 1 by omega, List.range'_succ]
  refine ⟨o, past, j, c, List.range' (j + 1) (i - (j + 1)), ho, htest, by rw [hrange], hcj, hoj, hcmp, hsets,
    fun k hk => ?_⟩
  obtain ⟨hjk, hki⟩ := List.mem_range'_1.mp hk
  have hlt : k < s.instructions.size := by
    have := (Array.getElem?_eq_some_iff.mp hi).1
    omega
  obtain ⟨hkind, hok⟩ := hbetween k (by omega) (by omega) _ (Array.getElem?_eq_getElem hlt)
  exact ⟨_, Array.getElem?_eq_getElem hlt, hok, hkind, hkind.elim Instruction.not_setsFlags_of_isMove
    Instruction.not_setsFlags_of_isBranch⟩

/-- Expansion keeps the flag discipline, and so does cleanup. -/
theorem expand_disciplined {f : Routine} {frame : Frame} {folding : Bool} {s : Stream}
    (h : f.expand frame folding = .ok s) :
    ∃ origins, f.trace frame folding = .ok (s, origins) ∧ origins.length = s.instructions.size ∧
      s.Disciplined f origins ∧ s.clean.Disciplined f (s.cleanFrom origins) := by
  rw [← f.fst_trace] at h
  cases htrace : f.trace frame folding with
  | error e =>
    rw [htrace] at h
    cases h
  | ok traced =>
    rw [htrace] at h
    obtain ⟨s', origins⟩ := traced
    cases h
    have hstart : Expansion.Tracked f.TestAt (Stream.empty f.name f.blocks.length f.pool, []) :=
      ⟨.empty .., rfl, fun i instr hi => by simp [Stream.empty] at hi⟩
    have htracked := hstart.traceBlocks (fun c k block m hb hm htest =>
      ⟨m, by rw [Nat.zero_add]; simp [Allocation.opAt?, hb, hm], htest⟩) htrace
    have hclean := Stream.cleanFrom_keeps (P := fun s origins => Expansion.Tracked f.TestAt (s, origins))
      (fun t data ht => ht.cleanRound) s' origins htracked
    exact ⟨origins, rfl, htracked.length, htracked.paired.disciplined, hclean.paired.disciplined⟩

/-- A selection whose copy stands between its compare and its branches, and a branch on a relation that
takes several. -/
def clamp : Routine where
  name := "clamp"
  blocks := [[.selectCc (.int .gt (.phys (.general 0)) (.reg (.phys (.general 1)))) (.phys (.general 2))
      (.phys (.general 3)) (.phys (.general 4)),
      .brCc (.float .ogt .double (.phys (.float 0)) (.phys (.float 1))) 0, .jump 1],
    [.ret [.general 2]]]

theorem expand_disciplined_clamp : ∃ s, clamp.expand Expansion.plainFrame true = .ok s ∧
    s.instructions.toList.countP Instruction.isConditional = 5 ∧
    ∃ origins, clamp.trace Expansion.plainFrame true = .ok (s, origins) ∧ origins.length = s.instructions.size ∧
      s.Disciplined clamp origins ∧ s.clean.Disciplined clamp (s.cleanFrom origins) := by
  have hcount : (clamp.expand Expansion.plainFrame true).toOption.map
      (·.instructions.toList.countP Instruction.isConditional) = some 5 := by decide +kernel
  cases hs : clamp.expand Expansion.plainFrame true with
  | error e =>
    rw [hs] at hcount
    cases hcount
  | ok s =>
    rw [hs] at hcount
    exact ⟨s, rfl, Option.some.inj hcount, expand_disciplined hs⟩

end DirectPage
