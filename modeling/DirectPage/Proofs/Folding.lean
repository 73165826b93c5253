import DirectPage.Proofs.Actions

/-! Jumps to the next block may be left out. The stream without them is what stays of the stream with
them, so that this is a case of leaving out superfluous instructions. -/
namespace DirectPage

def Action.marks : Action → List Bool
  | emit _ | branch _ _ => [true]
  | newLabel | define _ => []

namespace Stream

section Retain

variable {s : Stream} {keep : List Bool} (hw : s.WellFormed) (hk : keep.length = s.instructions.size)
include hw hk

private theorem labels_move_append (more : List Bool) :
    s.labels.map (·.map (LabelDef.move (keep ++ more))) = s.labels.map (·.map (LabelDef.move keep)) := by
  refine List.map_congr_left fun l hl => ?_
  obtain ⟨label, hlabel⟩ := List.mem_iff_getElem?.mp hl
  rcases l with _ | ⟨i⟩ | ⟨offset⟩
  · rfl
  · have := hw.labels_le label i hlabel
    simp only [Option.map_some, LabelDef.move, newPlace_append keep more (by omega : i ≤ keep.length)]
  · rfl

private theorem fixups_keep_append (more : List Bool) :
    (s.fixups.filterMap fun (i, label) =>
      if (keep ++ more)[i]? = some true then some (newPlace (keep ++ more) i, label) else none) =
    s.fixups.filterMap fun (i, label) =>
      if keep[i]? = some true then some (newPlace keep i, label) else none := by
  have hlt : ∀ f ∈ s.fixups, f.1 < keep.length := by
    rintro ⟨i, label⟩ hf
    exact hk ▸ hw.fixup_lt hf
  generalize s.fixups = fs at hlt
  induction fs with
  | nil => rfl
  | cons f fs ih =>
    have hf : f.1 < keep.length := hlt f List.mem_cons_self
    simp only [List.filterMap_cons, List.getElem?_append_left hf,
      newPlace_append keep more (Nat.le_of_lt hf), ih fun g hg => hlt g (List.mem_cons_of_mem _ hg)]

omit hw in
private theorem kept_push (instr : Instruction) (k : Bool) :
    (kept (keep ++ [k]) (s.instructions.push instr).toList).toArray =
      if k then (kept keep s.instructions.toList).toArray.push instr
      else (kept keep s.instructions.toList).toArray := by
  rw [Array.toList_push, kept_append (by simpa using hk)]
  cases k <;> simp [kept]

omit hw in
private theorem kept_size : (kept keep s.instructions.toList).toArray.size = newPlace keep s.instructions.size := by
  rw [List.size_toArray, kept_length (by simpa using hk), newPlace_of_le (by omega)]

/-- Leaving out instructions and appending commute. -/
theorem retain_act (a : Action) : (s.retain keep).act a = (s.act a).retain (keep ++ a.marks) := by
  have hlast : newPlace (keep ++ [true]) s.instructions.size = newPlace keep s.instructions.size :=
    newPlace_append keep [true] (by omega)
  have hget : (keep ++ [true])[s.instructions.size]? = some true := by
    rw [← hk, List.getElem?_append_right (Nat.le_refl _), Nat.sub_self]
    rfl
  cases a with
  | emit i =>
    simp only [act, emit, Action.marks, retain_eq, labels_move_append hw hk, fixups_keep_append hw hk,
      kept_push hk, if_true]
  | branch cond label =>
    simp only [act, emitBranch, Action.marks, retain_eq, labels_move_append hw hk, List.filterMap_append,
      fixups_keep_append hw hk, kept_push hk, if_true, kept_size hk, List.filterMap_cons,
      List.filterMap_nil, hget, hlast]
  | newLabel =>
    simp only [act, newLabel, Action.marks, List.append_nil, retain_eq, List.map_append, List.map_cons,
      List.map_nil, Option.map_none]
  | define label =>
    simp only [act, define, Action.marks, List.append_nil, retain_eq, kept_size hk, List.map_set,
      Option.map_some, LabelDef.move]

/-- A branch that is left out at once leaves no trace. -/
theorem retain_dropBranch (cond : Option BranchCond) (label : Nat) :
    (s.emitBranch cond label).retain (keep ++ [false]) = s.retain keep := by
  have hget : (keep ++ [false])[s.instructions.size]? = some false := by
    rw [← hk, List.getElem?_append_right (Nat.le_refl _), Nat.sub_self]
    rfl
  simp only [emitBranch, retain_eq, labels_move_append hw hk, List.filterMap_append,
    fixups_keep_append hw hk, kept_push hk, List.filterMap_cons, List.filterMap_nil, hget]
  simp

end Retain

theorem retain_empty (name : String) (blocks : Nat) (pool : List (List UInt8)) :
    (Stream.empty name blocks pool).retain [] = .empty name blocks pool := by
  have hw := WellFormed.empty name blocks pool
  have hlabels : (Stream.empty name blocks pool).labels.map (·.map (LabelDef.move [])) =
      (Stream.empty name blocks pool).labels.map id := by
    refine List.map_congr_left fun l hl => ?_
    obtain ⟨label, hlabel⟩ := List.mem_iff_getElem?.mp hl
    rcases l with _ | ⟨i⟩ | ⟨offset⟩
    · rfl
    · obtain rfl : i = 0 := Nat.le_zero.mp (hw.labels_le label i hlabel)
      rfl
    · rfl
  rw [retain_eq, hlabels, List.map_id]
  rfl

/-- A stream, what stays of it, and the branches that are left out: all lead to labels below `n`, which
are bound right behind them. -/
structure Settled (n : Nat) (s t : Stream) (keep : List Bool) : Prop where
  wellFormed : s.WellFormed
  length_eq : keep.length = s.instructions.size
  retained : t = s.retain keep
  blocks_le : s.blocks ≤ s.labels.length
  dropped : ∀ i : Nat, keep[i]? = some false → ∃ label < n, (i, label) ∈ s.fixups ∧
    s.labelPlace? label = some (i + 1)

theorem SameShape.retain (s : Stream) (keep : List Bool) : Expansion.SameShape s (s.retain keep) := by
  rw [retain_eq]
  exact ⟨rfl, rfl, by simp⟩

section Settled

variable {n : Nat} {s t : Stream} {keep : List Bool} {label : Nat} {a : Action}

private theorem blocks_act (s : Stream) (a : Action) : (s.act a).blocks = s.blocks := by
  cases a <;> rfl

private theorem mem_fixups_act {f : Nat × Nat} (h : f ∈ s.fixups) (a : Action) : f ∈ (s.act a).fixups := by
  cases a with
  | branch cond label => exact List.mem_append_left _ h
  | _ => exact h

private theorem labels_act_le (s : Stream) (a : Action) : s.labels.length ≤ (s.act a).labels.length := by
  cases a <;> simp [act, emit, emitBranch, newLabel, define]

private theorem labelPlace?_act {p : Nat} (h : s.labelPlace? label = some p) (ha : ∀ l, a = .define l → l ≠ label) :
    (s.act a).labelPlace? label = some p := by
  cases a with
  | emit i => exact h
  | branch cond l => exact h
  | newLabel =>
    obtain ⟨-, hl⟩ := isLabelled_of_labelPlace? h
    have hlt : label < s.labels.length := (List.getElem?_eq_some_iff.mp hl).1
    simp only [act, newLabel, labelPlace?, List.getElem?_append_left hlt, hl]
    rfl
  | define l =>
    have : l ≠ label := ha l rfl
    simpa only [act, define, labelPlace?, List.getElem?_set_ne this] using h

private theorem Settled.act (h : Settled n s t keep) (ha : ∀ l, a = .define l → n ≤ l) :
    Settled n (s.act a) (t.act a) (keep ++ a.marks) where
  wellFormed := h.wellFormed.act a
  length_eq := by
    have := h.length_eq
    cases a <;> simp [Stream.act, emit, emitBranch, newLabel, define, Action.marks, this]
  retained := by rw [h.retained, retain_act h.wellFormed h.length_eq]
  blocks_le := by
    have h1 := h.blocks_le
    have h2 := labels_act_le s a
    rw [blocks_act]
    omega
  dropped i hi := by
    have hold : keep[i]? = some false := by
      by_cases hlt : i < keep.length
      · rwa [List.getElem?_append_left hlt] at hi
      · rw [List.getElem?_append_right (by omega)] at hi
        cases a with
        | newLabel | define => cases hi
        | emit | branch => cases hk : i - keep.length <;> simp [Action.marks, hk] at hi
    obtain ⟨label, hlt, hf, hp⟩ := h.dropped i hold
    refine ⟨label, hlt, mem_fixups_act hf a, labelPlace?_act hp fun l hl => ?_⟩
    have := ha l hl
    omega

theorem Settled.acts (h : Settled n s t keep) {as : List Action} (ha : ∀ l, .define l ∈ as → n ≤ l) :
    Settled n (s.acts as) (t.acts as) (keep ++ as.flatMap Action.marks) := by
  induction as generalizing s t keep with
  | nil => simpa using h
  | cons a as ih =>
    have hact := h.act fun l hl => ha l (hl ▸ List.mem_cons_self)
    have := ih hact fun l hl => ha l (List.mem_cons_of_mem _ hl)
    rwa [List.append_assoc] at this

/-- Between two blocks the last branch may be left out already while its label, that of the next block,
is not bound yet. -/
def Folded (n : Nat) (s t : Stream) : Prop :=
  s.Guarded ∧ ∃ keep, Settled n s t keep ∨
    ∃ u, u.Guarded ∧ Settled n u t keep ∧ n < u.blocks ∧ s = u.emitBranch none n

private theorem labelPlace?_define (h : label < s.labels.length) :
    (s.define label).labelPlace? label = some s.instructions.size := by
  simp only [define, labelPlace?, List.getElem?_set_self h]
  rfl

/-- The label of the next block is bound behind a branch that is left out. -/
private theorem Folded.define (h : Folded n s t) (hn : n < s.blocks) :
    (s.define n).Guarded ∧ ∃ keep, Settled (n + 1) (s.define n) (t.define n) keep := by
  obtain ⟨hg, keep, hs | ⟨u, hgu, hs, hnu, rfl⟩⟩ := h
  · have hact : Settled n (s.define n) (t.define n) (keep ++ []) :=
      hs.act (a := .define n) fun l hl => by cases hl; exact Nat.le_refl _
    refine ⟨hg.acts hs.wellFormed false [.define n] (by simp) rfl, _,
      { hact with dropped := fun i hi => ?_ }⟩
    obtain ⟨label, hlt, hf, hp⟩ := hact.dropped i hi
    exact ⟨label, by omega, hf, hp⟩
  · have hw : (u.emitBranch none n).WellFormed := hs.wellFormed.emitBranch none n
    have hk : (keep ++ [false]).length = (u.emitBranch none n).instructions.size := by
      simp [hs.length_eq, emitBranch]
    have hlabels : n < (u.emitBranch none n).labels.length := Nat.lt_of_lt_of_le hnu hs.blocks_le
    refine ⟨hg.acts hw false [.define n] (by simp) rfl, keep ++ [false],
      hw.define n, hk, ?_, ?_, fun i hi => ?_⟩
    · rw [hs.retained, ← retain_dropBranch hs.wellFormed hs.length_eq none n]
      have hact := retain_act hw hk (.define n)
      rw [Action.marks, List.append_nil] at hact
      exact hact
    · simpa [Stream.define, emitBranch] using hs.blocks_le
    · by_cases hlt : i < keep.length
      · rw [List.getElem?_append_left hlt] at hi
        obtain ⟨label, hlt, hf, hp⟩ := hs.dropped i hi
        refine ⟨label, by omega, List.mem_append_left _ hf, ?_⟩
        exact labelPlace?_act (s := u.emitBranch none n) (a := .define n) hp fun l hl => by cases hl; omega
      · obtain rfl : i = keep.length := by
          have := (List.getElem?_eq_some_iff.mp hi).1
          simp only [List.length_append, List.length_singleton] at this
          omega
        refine ⟨n, Nat.lt_succ_self n, ?_, ?_⟩
        · rw [hs.length_eq]
          exact List.mem_append_right _ List.mem_cons_self
        · rw [labelPlace?_define hlabels, ← hk]
          simp

end Settled

end Stream

def Routine.TargetsInRange (f : Routine) : Prop :=
  ∀ block ∈ f.blocks, ∀ target ∈ branchTargets block, target < f.blocks.length

def Routine.JumpsEndBlocks (f : Routine) : Prop :=
  ∀ block ∈ f.blocks, ∀ m ∈ block.dropLast, ∀ target, m ≠ .jump target

namespace Expansion

open DirectPage.Stream

inductive Both (P : Stream → Stream → Prop) : Checked Stream → Checked Stream → Prop
  | error (e : Failure) : Both P (.error e) (.error e)
  | ok {s t : Stream} : P s t → Both P (.ok s) (.ok t)

theorem Both.bind {P Q : Stream → Stream → Prop} {x y : Checked Stream} {f g : Stream → Checked Stream}
    (h : Both P x y) (hfg : ∀ s t, P s t → Both Q (f s) (g t)) : Both Q (x >>= f) (y >>= g) := by
  cases h with
  | error e => exact .error e
  | ok hp => exact hfg _ _ hp

variable {frame : Frame} {b : Nat} {m : Pseudo} {s t : Stream} {keep : List Bool}

/-- Operations bind new labels only. -/
private theorem define_mem_actions {folding : Bool} {as : List Action} (h : actions frame folding b s m = .ok as)
    {l : Nat} (hl : .define l ∈ as) : s.labels.length ≤ l := by
  cases expands_actions h with
  | code | move | fall | jump => simp at hl
  | select | branch =>
    simp [planActions] at hl
    omega

/-- Folding changes what is done for a jump to the next block only. -/
private theorem actions_folding (hm : m ≠ .jump (b + 1)) : actions frame true b s m = actions frame false b s m := by
  cases m with
  | jump target =>
    have : target ≠ b + 1 := fun he => hm (he ▸ rfl)
    simp [actions, this]
  | _ => rfl

private theorem expandInst_fold (h : Settled (b + 1) s t keep) (hg : s.Guarded) (hn : b + 1 ≤ s.blocks)
    (hm : m ≠ .jump (b + 1)) :
    Both (fun s' t' => s'.Guarded ∧ s'.blocks = s.blocks ∧ ∃ keep, Settled (b + 1) s' t' keep)
      (expandInst frame false b s m) (expandInst frame true b t m) := by
  have hshape : SameShape s t := h.retained ▸ SameShape.retain s keep
  rw [expandInst_eq, expandInst_eq, actions_folding hm, ← actions_congr hshape]
  cases ha : actions frame false b s m with
  | error e => exact .error e
  | ok as =>
    refine .ok ⟨hg.acts h.wellFormed false as (by simp) (guards_actions ha), s.blocks_acts as, _,
      h.acts fun l hl => ?_⟩
    have h1 := define_mem_actions ha hl
    have h2 := h.blocks_le
    omega

private theorem branchLabel_ok (h : b < s.blocks) : branchLabel s b = .ok b := by
  rw [branchLabel, blockLabel?, if_pos h]
  rfl

private theorem foldlM_fold {ops : List Pseudo} (h : Settled (b + 1) s t keep) (hg : s.Guarded)
    (hn : b + 1 ≤ s.blocks) (hjumps : ∀ m ∈ ops.dropLast, ∀ target, m ≠ .jump target)
    (htargets : ∀ target ∈ branchTargets ops, target < s.blocks) :
    Both (fun s' t' => Folded (b + 1) s' t' ∧ s'.blocks = s.blocks)
      (ops.foldlM (expandInst frame false b) s) (ops.foldlM (expandInst frame true b) t) := by
  induction ops generalizing s t keep with
  | nil => exact .ok ⟨⟨hg, keep, .inl h⟩, rfl⟩
  | cons m rest ih =>
    by_cases hm : m = .jump (b + 1)
    · subst hm
      obtain rfl : rest = [] := by
        cases rest with
        | nil => rfl
        | cons m' rest => exact absurd rfl (hjumps (.jump (b + 1)) (by simp) (b + 1))
      have hlt : b + 1 < s.blocks := htargets (b + 1) (by simp [branchTargets])
      have hoff : expandInst frame false b s (.jump (b + 1)) = .ok (s.emitBranch none (b + 1)) := by
        simp only [expandInst, jump, Bool.false_and, Bool.false_eq_true, if_false, branchLabel_ok hlt]
        rfl
      have hon : expandInst frame true b t (.jump (b + 1)) = .ok t := by
        simp only [expandInst, jump, Bool.true_and, beq_self_eq_true, if_true]
        rfl
      rw [List.foldlM_cons, List.foldlM_cons, hoff, hon, ok_bind, ok_bind]
      exact .ok ⟨⟨hg.acts h.wellFormed false [.branch none (b + 1)] (by simp) rfl, keep,
        .inr ⟨s, hg, h, hlt, rfl⟩⟩, rfl⟩
    · rw [List.foldlM_cons, List.foldlM_cons]
      refine (expandInst_fold h hg hn hm).bind ?_
      rintro s' t' ⟨hg', hblocks, keep', h'⟩
      have hrest := ih h' hg' (by omega)
        (fun m' hm' => hjumps m' (by cases rest with
          | nil => cases hm'
          | cons => exact List.mem_cons_of_mem _ hm'))
        (fun target ht => by
          rw [hblocks]
          refine htargets target ?_
          rw [branchTargets, List.mem_filterMap] at ht ⊢
          obtain ⟨op, hop, he⟩ := ht
          exact ⟨op, List.mem_cons_of_mem _ hop, he⟩)
      rwa [hblocks] at hrest

private theorem expandBlocks_fold {blocks : List (List Pseudo)} (h : Folded b s t) (hb : b + blocks.length = s.blocks)
    (hjumps : ∀ block ∈ blocks, ∀ m ∈ block.dropLast, ∀ target, m ≠ .jump target)
    (htargets : ∀ block ∈ blocks, ∀ target ∈ branchTargets block, target < s.blocks) :
    Both (fun s' t' => Folded s'.blocks s' t') (expandBlocks frame false s b blocks)
      (expandBlocks frame true t b blocks) := by
  induction blocks generalizing b s t with
  | nil =>
    obtain rfl : b = s.blocks := by simpa using hb
    exact .ok h
  | cons block rest ih =>
    rw [List.length_cons] at hb
    obtain ⟨hg, keep, hs⟩ := h.define (by omega)
    have hshape : SameShape (s.define b) (t.define b) := hs.retained ▸ SameShape.retain (s.define b) keep
    have hblocks : s.blocks = t.blocks := hshape.blocks
    rw [expandBlocks, expandBlocks, expandBlock_of_lt (s := s) (by omega), expandBlock_of_lt (s := t) (by omega)]
    refine Both.bind (foldlM_fold hs hg (by simp only [define]; omega) (hjumps block List.mem_cons_self)
      (htargets block List.mem_cons_self)) ?_
    rintro s' t' ⟨hf, hblocks⟩
    have hblocks : s'.blocks = s.blocks := hblocks
    refine ih hf (by omega) (fun block' hb' => hjumps block' (List.mem_cons_of_mem _ hb')) ?_
    rw [hblocks]
    exact fun block' hb' => htargets block' (List.mem_cons_of_mem _ hb')

/-- The stream with folding is what stays of the one without when superfluous branches are left out. -/
theorem expand_fold {f : Routine} (frame : Frame) (htargets : f.TargetsInRange)
    (hjumps : f.JumpsEndBlocks) :
    Both (fun s t => s.WellFormed ∧ s.Guarded ∧ ∃ keep, t = s.retain keep ∧
        keep.length = s.instructions.size ∧ ∀ i : Nat, keep[i]? = some false → s.Superfluous i)
      (f.expand frame false) (f.expand frame true) := by
  have hstart : Folded 0 (.empty f.name f.blocks.length f.pool) (.empty f.name f.blocks.length f.pool) :=
    ⟨fun i label cond offset hf => absurd hf (by simp [Stream.empty]), [],
      .inl ⟨.empty _ _ _, rfl, (retain_empty _ _ _).symm, by simp [Stream.empty], by simp⟩⟩
  have hall : Both (fun s t => Folded s.blocks s t) (f.expand frame false) (f.expand frame true) :=
    expandBlocks_fold hstart (by simp [Stream.empty]) hjumps htargets
  generalize f.expand frame false = x at hall
  generalize f.expand frame true = y at hall
  cases hall with
  | error e => exact .error e
  | ok h =>
    obtain ⟨hg, keep, hs | ⟨u, -, -, hlt, hu⟩⟩ := h
    · refine .ok ⟨hs.wellFormed, hg, keep, hs.retained, hs.length_eq, fun i hi => ?_⟩
      obtain ⟨label, -, hf, hp⟩ := hs.dropped i hi
      exact .inl ⟨label, hf, hp⟩
    · have hblocks := congrArg Stream.blocks hu
      exact absurd hlt (Nat.not_lt_of_le (Nat.le_of_eq hblocks.symm))

/-- Neither cleanup nor leaving out jumps to the next block can be seen from outside: the four streams
have the same events, the same end, and machines there that differ in the zero and negative flag at
most. -/
theorem expand_clean_agree {f : Routine} (frame : Frame) (htargets : f.TargetsInRange)
    (hjumps : f.JumpsEndBlocks) :
    Both (fun off on => ∀ s ∈ [off, on, off.clean, on.clean], ∀ t ∈ [off, on, off.clean, on.clean], s.Agree t)
      (f.expand frame false) (f.expand frame true) := by
  have hfold := expand_fold frame htargets hjumps
  generalize f.expand frame false = x at hfold
  generalize f.expand frame true = y at hfold
  cases hfold with
  | error e => exact .error e
  | @ok off on h =>
    obtain ⟨hw, hg, keep, rfl, hk, hdrop⟩ := h
    have hon := agree_retain hw hg hk hdrop
    have hall : ∀ s ∈ [off, off.retain keep, off.clean, (off.retain keep).clean], off.Agree s := by
      simp only [List.forall_mem_cons]
      exact ⟨.refl off, hon, agree_clean hw hg,
        hon.trans (agree_clean (hw.retain hk) (hg.retain hw hk hdrop)), by simp⟩
    exact .ok fun s hs t ht => (hall s hs).symm.trans (hall t ht)

def countDown : Routine where
  name := "countDown"
  blocks := [[.copy (.phys (.general 1)) (.phys (.general 0)),
      .copy (.phys (.general 2)) (.phys (.general 1)), .jump 1],
    [.aluImm .add (.phys (.general 2)) (.phys (.general 2)) (-1#32),
      .brCc (.int .ne (.phys (.general 2)) (.imm 0#32)) 1, .jump 2],
    [.ret [.general 1]]]

def plainFrame : Frame where
  callFrameSize := 0
  stackSize := 0
  frameBase := false
  reservedCallFrame := true
  saved := []

theorem expand_clean_agree_countDown : countDown.TargetsInRange ∧ countDown.JumpsEndBlocks ∧
    ∃ off on, countDown.expand plainFrame false = .ok off ∧ countDown.expand plainFrame true = .ok on ∧
      [off, on, off.clean, on.clean].map (·.instructions.size) = [11, 9, 8, 8] ∧
      ∀ s ∈ [off, on, off.clean, on.clean], ∀ t ∈ [off, on, off.clean, on.clean], s.Agree t := by
  have htargets : countDown.TargetsInRange := by
    simp only [Routine.TargetsInRange]
    decide
  have hjumps : countDown.JumpsEndBlocks := by
    simp [Routine.JumpsEndBlocks, countDown]
  have hsizes : (do
      let off ← countDown.expand plainFrame false
      let on ← countDown.expand plainFrame true
      return [off, on, off.clean, on.clean].map (·.instructions.size) : Checked (List Nat)).toOption =
        some [11, 9, 8, 8] := by decide +kernel
  have hagree := expand_clean_agree plainFrame htargets hjumps
  generalize countDown.expand plainFrame false = x at *
  generalize countDown.expand plainFrame true = y at *
  cases hagree with
  | error e => cases hsizes
  | ok h => exact ⟨htargets, hjumps, _, _, rfl, rfl, Option.some.inj hsizes, h⟩

end Expansion

end DirectPage
