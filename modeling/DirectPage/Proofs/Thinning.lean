import DirectPage.Proofs.Retain
import DirectPage.Proofs.StreamRun

/-! Leaving out superfluous instructions changes nothing that can be seen. A load that is left out
leaves the zero and negative flag stale, so every conditional branch has to stand behind a compare. -/
namespace DirectPage

def Instruction.isReload : Instruction → Bool
  | direct .ldaDp _ | implied .tax => true
  | _ => false

section Short

variable {i : Instruction} (h : i.relaxed?.isSome = true)
include h

theorem Instruction.isCompare_of_short : i.isCompare = false := by
  cases i with
  | branch | bra => rfl
  | _ => cases h

theorem Instruction.operand?_of_short : i.operand? = none := by
  cases i with
  | branch | bra => rfl
  | _ => cases h

theorem Instruction.isRedundant_of_short (cur : Instruction) : isRedundant i cur = false := by
  cases i with
  | branch | bra => rfl
  | _ => cases h

end Short

variable {i : Instruction}

theorem Instruction.isReload_cases (h : i.isReload = true) : (∃ x, i = .direct .ldaDp x) ∨ i = .implied .tax := by
  cases i with
  | direct op x =>
    cases op with
    | ldaDp => exact .inl ⟨x, rfl⟩
    | _ => cases h
  | implied op =>
    cases op with
    | tax => exact .inr rfl
    | _ => cases h
  | _ => cases h

theorem Instruction.isReload_of_isRedundant {prev cur : Instruction} (h : isRedundant prev cur = true) :
    cur.isReload = true ∧ cur.flow = .next ∧ ∀ f, cur.mapOperand f = cur := by
  obtain ⟨x, -, rfl⟩ | ⟨-, rfl⟩ := isRedundant_cases h <;> exact ⟨rfl, rfl, fun _ => rfl⟩

theorem Instruction.not_isCompare_of_isReload (h : i.isReload = true) : i.isCompare = false := by
  obtain ⟨x, rfl⟩ | rfl := Instruction.isReload_cases h <;> rfl

theorem Instruction.isRedundant_of_isReload (h : i.isReload = true) (cur : Instruction) :
    isRedundant i cur = false := by
  obtain ⟨x, rfl⟩ | rfl := Instruction.isReload_cases h <;> rfl

theorem Machine.destination?_of_isReload (m : Machine) (h : i.isReload = true) : m.destination? i = none := by
  obtain ⟨x, rfl⟩ | rfl := Instruction.isReload_cases h <;> rfl

theorem Instruction.not_short_of_isReload (h : i.isReload = true) : i.relaxed?.isSome = false := by
  obtain ⟨x, rfl⟩ | rfl := Instruction.isReload_cases h <;> rfl

namespace Stream

/-- Places that are only reached from the instruction before, behind which theirs is redundant. -/
def RedundantAt (s : Stream) (i : Nat) : Prop :=
  s.isLabelled i = false ∧ ∃ j prev cur, i = j + 1 ∧ s.instructions[j]? = some prev ∧
    s.instructions[i]? = some cur ∧ isRedundant prev cur = true

def Superfluous (s : Stream) (i : Nat) : Prop :=
  (∃ label, (i, label) ∈ s.fixups ∧ s.labelPlace? label = some (i + 1)) ∨ s.RedundantAt i

/-- Places that are only reached from an earlier one, past those in between. What stands there is told by place
and instruction. -/
def Behind (s : Stream) (first between : Nat → Instruction → Prop) (i : Nat) : Prop :=
  ∃ j < i, (∃ c, s.instructions[j]? = some c ∧ first j c) ∧
    (∀ k, j < k → k < i → ∀ instr, s.instructions[k]? = some instr → between k instr) ∧
    ∀ k, j < k → k ≤ i → s.isLabelled k = false

/-- Places that are only reached from a compare before them, with no reload in between. -/
def Fresh (s : Stream) (i : Nat) : Prop :=
  ∃ j < i, (∃ c, s.instructions[j]? = some c ∧ c.isCompare = true) ∧
    (∀ k, j < k → k < i → ∀ instr, s.instructions[k]? = some instr → instr.isReload = false) ∧
    ∀ k, j < k → k ≤ i → s.isLabelled k = false

/-- Every conditional branch tests the flags of a compare. -/
def Guarded (s : Stream) : Prop :=
  ∀ i label cond offset, (i, label) ∈ s.fixups → s.instructions[i]? = some (.branch cond offset) →
    s.Fresh i

/-- What the machines of two runs have in common, the first of which is at place `i`. -/
structure Tied (s : Stream) (i : Nat) (m m' : Machine) : Prop where
  alike : m.forget = m'.forget
  fresh : s.Fresh i → m = m'
  idle : s.RedundantAt i → ∀ cur, s.instructions[i]? = some cur → Machine.Alike (m.exec cur) (.ok m)

inductive Related (s : Stream) (keep : List Bool) : Status → Status → Prop
  | running {i : Nat} {m m' : Machine} : i ≤ s.instructions.size → s.Tied i m m' →
      Related s keep (.running i m) (.running (newPlace keep i) m')
  | ended {x : Exit} {m m' : Machine} : m.forget = m'.forget →
      Related s keep (.ended x m) (.ended x m')

variable {s : Stream} {label i : Nat}

theorem isLabelled_of_labelPlace? {p : Nat} (h : s.labelPlace? label = some p) :
    s.isLabelled p = true ∧ s.labels[label]? = some (some (.instr p)) := by
  simp only [labelPlace?] at h
  split at h
  · next i hl =>
    cases h
    rw [Option.join_eq_some_iff] at hl
    exact ⟨by simpa [isLabelled] using List.mem_of_getElem? hl, hl⟩
  · cases h

theorem not_fresh_of_isLabelled (h : s.isLabelled i = true) : ¬ s.Fresh i := by
  rintro ⟨j, hj, -, -, hl⟩
  rw [hl i hj (Nat.le_refl _)] at h
  cases h

theorem Fresh.of_succ (h : s.Fresh (i + 1)) {instr : Instruction} (hi : s.instructions[i]? = some instr) :
    instr.isCompare = true ∨ (s.Fresh i ∧ instr.isReload = false) := by
  obtain ⟨j, hj, ⟨c, hc, hcc⟩, hneutral, hl⟩ := h
  rcases Nat.lt_or_eq_of_le (Nat.le_of_lt_succ hj) with hlt | rfl
  · right
    exact ⟨⟨j, hlt, ⟨c, hc, hcc⟩, fun k hk hki => hneutral k hk (by omega), fun k hk hki => hl k hk (by omega)⟩,
      hneutral i hlt (Nat.lt_succ_self i) instr hi⟩
  · cases hi.symm.trans hc
    exact .inl hcc

theorem lookup_eq_some_iff (hw : s.WellFormed) : s.fixups.lookup i = some label ↔ (i, label) ∈ s.fixups := by
  have hmem : ∀ (fs : List (Nat × Nat)) (label : Nat), fs.lookup i = some label → (i, label) ∈ fs := by
    intro fs label
    induction fs with
    | nil => simp
    | cons f fs ih =>
      obtain ⟨j, l⟩ := f
      intro h
      rw [List.lookup_cons] at h
      split at h
      · next he =>
        cases h
        rw [beq_iff_eq] at he
        subst he
        exact List.mem_cons_self
      · exact List.mem_cons_of_mem _ (ih h)
  refine ⟨hmem _ label, fun h => ?_⟩
  cases hlookup : s.fixups.lookup i with
  | none =>
    rw [List.lookup_eq_none_iff] at hlookup
    exact absurd (hlookup _ h) (by simp)
  | some l => rw [hw.fixup_unique h (hmem _ l hlookup)]

section Retained

variable {s : Stream} {keep : List Bool} {i : Nat}

theorem labelPlace?_retain (label : Nat) :
    (s.retain keep).labelPlace? label = (s.labelPlace? label).map (newPlace keep) := by
  simp only [labelPlace?, retain_eq, List.getElem?_map]
  rcases s.labels[label]? with _ | _ | _ | _ <;> rfl

theorem isLabelled_retain {p : Nat} (h : (s.retain keep).isLabelled p = true) :
    ∃ q, s.isLabelled q = true ∧ newPlace keep q = p := by
  simp only [isLabelled, retain_eq, List.contains_iff_mem, List.mem_map, Option.map_eq_some_iff] at h ⊢
  obtain ⟨_, hl, d, rfl, hd⟩ := h
  cases d with
  | instr q =>
    cases hd
    exact ⟨q, hl, rfl⟩
  | pool offset => cases hd

theorem le_of_newPlace_le {j : Nat} (hi : keep[i]? = some true) (h : newPlace keep j ≤ newPlace keep i) : j ≤ i := by
  refine Nat.le_of_not_lt fun hlt => ?_
  have := newPlace_lt hi hlt
  omega

theorem mem_fixups_retain {label : Nat} (hi : keep[i]? = some true) :
    (newPlace keep i, label) ∈ (s.retain keep).fixups ↔ (i, label) ∈ s.fixups := by
  simp only [retain_eq, List.mem_filterMap, Prod.exists, Option.ite_none_right_eq_some, Option.some.injEq,
    Prod.mk.injEq]
  constructor
  · rintro ⟨j, l, hf, hj, he, rfl⟩
    have h1 := le_of_newPlace_le hi (Nat.le_of_eq he)
    have h2 := le_of_newPlace_le hj (Nat.le_of_eq he.symm)
    rwa [Nat.le_antisymm h1 h2] at hf
  · intro hf
    exact ⟨i, label, hf, hi, rfl, rfl⟩

variable (hk : keep.length = s.instructions.size)
include hk

theorem instructions_retain (hi : keep[i]? = some true) :
    (s.retain keep).instructions[newPlace keep i]? = s.instructions[i]? := by
  rw [retain_eq, List.getElem?_toArray, kept_getElem? (by simpa using hk) hi, Array.getElem?_toList]

theorem size_retain : (s.retain keep).instructions.size = newPlace keep s.instructions.size := by
  rw [retain_eq, List.size_toArray, kept_length (by simpa using hk), newPlace_of_le (by omega)]

theorem lookup_retain (hw : s.WellFormed) (hi : keep[i]? = some true) :
    (s.retain keep).fixups.lookup (newPlace keep i) = s.fixups.lookup i := by
  refine Option.ext fun label => ?_
  rw [lookup_eq_some_iff (hw.retain hk), mem_fixups_retain hi, lookup_eq_some_iff hw]

end Retained

section Simulation

variable {s : Stream} {keep : List Bool} (hw : s.WellFormed) (hg : s.Guarded)
  (hk : keep.length = s.instructions.size) (w : World)

variable {m m' : Machine} {instr c : Instruction} {label : Nat} {st st' : Status} {i p : Nat}

/-- Control goes on behind an instruction: what the next place asks of the machines. -/
private theorem Tied.next {m1 m1' : Machine} (ht : s.Tied i m m') (hi : s.instructions[i]? = some instr)
    (hf : m1.forget = m1'.forget) (he : m = m' ∨ instr.isCompare = true → m1 = m1')
    (hr : ∀ cur, isRedundant instr cur = true → Machine.Alike (m1.exec cur) (.ok m1)) :
    s.Tied (i + 1) m1 m1' where
  alike := hf
  fresh h := by
    rcases h.of_succ hi with hc | ⟨hfresh, -⟩
    · exact he (.inr hc)
    · exact he (.inl (ht.fresh hfresh))
  idle := by
    rintro ⟨-, j, prev, cur, hj, hprev, hcur, hred⟩ cur' hcur'
    obtain rfl : j = i := by omega
    cases hi.symm.trans hprev
    cases hcur.symm.trans hcur'
    exact hr cur hred

/-- A place that a label is bound to asks nothing but that the machines are alike. -/
private theorem Tied.of_isLabelled (hl : s.isLabelled p = true) (hf : m.forget = m'.forget) :
    s.Tied p m m' where
  alike := hf
  fresh h := absurd h (not_fresh_of_isLabelled hl)
  idle := by
    rintro ⟨hn, -⟩
    rw [hl] at hn
    cases hn

private theorem newPlace_succ_of_keep (hi : keep[i]? = some true) : newPlace keep (i + 1) = newPlace keep i + 1 := by
  rw [newPlace_succ, if_pos hi]

include hw

private theorem labelPlace?_le (h : s.labelPlace? label = some p) : p ≤ s.instructions.size :=
  hw.labels_le label p (isLabelled_of_labelPlace? h).2

include hg

private theorem taken_tied (ht : s.Tied i m m') (hi : s.instructions[i]? = some instr) (hf : (i, label) ∈ s.fixups) :
    instr.taken m.flags = instr.taken m'.flags := by
  obtain ⟨short, hs, hr⟩ := hw.fixups_short i label hf
  cases hi.symm.trans hs
  cases instr with
  | branch cond offset => rw [ht.fresh (hg i label cond offset hf hi)]
  | bra offset => rfl
  | _ => cases hr

private theorem branch_related (ht : s.Tied i m m') (hi : s.instructions[i]? = some instr)
    (hf : (i, label) ∈ s.fixups) (hki : keep[i]? = some true) :
    Related s keep (s.branch i label instr m) ((s.retain keep).branch (newPlace keep i) label instr m') := by
  rw [branch, branch, taken_tied hw hg ht hi hf, labelPlace?_retain]
  split
  · cases hp : s.labelPlace? label with
    | none => exact .ended ht.alike
    | some p =>
      exact .running (labelPlace?_le hw hp) (.of_isLabelled (isLabelled_of_labelPlace? hp).1 ht.alike)
  · rw [← newPlace_succ_of_keep hki]
    have hlt := hw.fixup_lt hf
    obtain ⟨short, hs, hr⟩ := hw.fixups_short i label hf
    cases hi.symm.trans hs
    refine .running hlt (ht.next hi ht.alike ?_ ?_)
    · rintro (he | hc)
      · exact he
      · rw [Instruction.isCompare_of_short hr] at hc
        cases hc
    · intro cur hred
      rw [Instruction.isRedundant_of_short hr] at hred
      cases hred

include hk

/-- Both runs execute an instruction that stays. -/
private theorem step_kept (ht : s.Tied i m m') (hki : keep[i]? = some true) :
    (s.step w (.running i m)).1 = ((s.retain keep).step w (.running (newPlace keep i) m')).1 ∧
      Related s keep (s.step w (.running i m)).2
        ((s.retain keep).step w (.running (newPlace keep i) m')).2 := by
  have hlt : i < s.instructions.size := by
    have := (List.getElem?_eq_some_iff.mp hki).1
    omega
  have hi : s.instructions[i]? = some s.instructions[i] := Array.getElem?_eq_getElem hlt
  simp only [step, instructions_retain hk hki, lookup_retain hk hw hki, hi]
  cases hl : s.fixups.lookup i with
  | some label => exact ⟨rfl, branch_related hw hg ht hi ((lookup_eq_some_iff hw).mp hl) hki⟩
  | none =>
    obtain ⟨hevents, hstatus⟩ :=
      World.perform_alike (w := w) ht.alike i (newPlace keep i) s.instructions[i]
    refine ⟨hevents, ?_⟩
    rw [← newPlace_succ_of_keep hki] at hstatus
    generalize (w.perform i s.instructions[i] m).2 = st at hstatus
    generalize (w.perform (newPlace keep i) s.instructions[i] m').2 = st' at hstatus
    cases hstatus with
    | running hf hp => exact .running hlt (ht.next hi hf hp.1 hp.2)
    | ended hf => exact .ended hf

omit hg hk

private theorem step_toNext (ht : s.Tied i m m') (hf : (i, label) ∈ s.fixups)
    (hl : s.labelPlace? label = some (i + 1)) :
    s.step w (.running i m) = ([], .running (i + 1) m) ∧ s.Tied (i + 1) m m' := by
  obtain ⟨instr, hi, -⟩ := hw.fixups_short i label hf
  refine ⟨?_, .of_isLabelled (isLabelled_of_labelPlace? hl).1 ht.alike⟩
  simp only [step, hi, (lookup_eq_some_iff hw).mpr hf, branch, hl]
  split <;> rfl

private theorem step_redundant (ht : s.Tied i m m') (hr : s.RedundantAt i) :
    ∃ m1, s.step w (.running i m) = ([], .running (i + 1) m1) ∧ s.Tied (i + 1) m1 m' := by
  obtain ⟨j, prev, cur, hj, hprev, hcur, hred⟩ := hr.2
  obtain ⟨hreload, hflow, hmap⟩ := Instruction.isReload_of_isRedundant hred
  have hnone : s.fixups.lookup i = none := by
    rw [Option.eq_none_iff_forall_ne_some]
    intro label hl
    obtain ⟨short, hs, hshort⟩ := hw.fixups_short i label ((lookup_eq_some_iff hw).mp hl)
    cases hcur.symm.trans hs
    rw [Instruction.not_short_of_isReload hreload] at hshort
    cases hshort
  rcases (ht.idle hr cur hcur).cases with ⟨e, -, he⟩ | ⟨m1, m2, hexec, hm, hf⟩
  · cases he
  · cases hm
    refine ⟨m1, ?_, ?_⟩
    · simp only [step, hcur, hnone, World.perform, hflow, hmap, hexec, World.written,
        m.destination?_of_isReload hreload]
    · refine ⟨hf.trans ht.alike, fun hfresh => ?_, ?_⟩
      · rcases hfresh.of_succ hcur with hc | ⟨-, hn⟩
        · rw [Instruction.not_isCompare_of_isReload hreload] at hc
          cases hc
        · rw [hreload] at hn
          cases hn
      · rintro ⟨-, k, p, c, hk, hp, -, hred'⟩
        obtain rfl : i = k := by omega
        cases hcur.symm.trans hp
        rw [Instruction.isRedundant_of_isReload hreload] at hred'
        cases hred'

private def left (s : Stream) : Status → Nat
  | .running i _ => s.instructions.size - i
  | .ended _ _ => 0

include hg hk

/-- Both runs take a step, or the first one alone executes what is left out of the second. -/
private theorem step_related (hdrop : ∀ i : Nat, keep[i]? = some false → s.Superfluous i) (h : Related s keep st st') :
    ((s.step w st).1 = ((s.retain keep).step w st').1 ∧
      Related s keep (s.step w st).2 ((s.retain keep).step w st').2) ∨
    ((s.step w st).1 = [] ∧ Related s keep (s.step w st).2 st' ∧
      left s (s.step w st).2 < left s st) := by
  cases h with
  | ended hf => exact .inl ⟨rfl, .ended hf⟩
  | @running i m m' hle ht =>
    cases hki : keep[i]? with
    | none =>
      obtain rfl : i = s.instructions.size := by
        have := List.getElem?_eq_none_iff.mp hki
        omega
      left
      have h1 : s.instructions[s.instructions.size]? = none := Array.getElem?_eq_none (Nat.le_refl _)
      have h2 : (s.retain keep).instructions[newPlace keep s.instructions.size]? = none :=
        Array.getElem?_eq_none (Nat.le_of_eq (size_retain hk))
      simp only [step, h1, h2]
      exact ⟨trivial, .ended ht.alike⟩
    | some k =>
      have hlt : i < s.instructions.size := by
        have := (List.getElem?_eq_some_iff.mp hki).1
        omega
      cases k with
      | true => exact .inl (step_kept hw hg hk w ht hki)
      | false =>
        have hnew : newPlace keep i = newPlace keep (i + 1) := by rw [newPlace_succ, hki]; rfl
        obtain ⟨m1, hstep, ht⟩ : ∃ m1, s.step w (.running i m) = ([], .running (i + 1) m1) ∧
            s.Tied (i + 1) m1 m' := by
          rcases hdrop i hki with ⟨label, hf, hl⟩ | hr
          · exact ⟨m, step_toNext hw w ht hf hl⟩
          · exact step_redundant hw w ht hr
        right
        rw [hstep, hnew]
        refine ⟨rfl, .running hlt ht, ?_⟩
        simp only [left]
        omega

omit hw hg hk in
private theorem Related.sameOutcome (h : Related s keep st st') (es : List Event) :
    SameOutcome (es, st) (es, st') := by
  cases h with
  | running => exact ⟨rfl, trivial⟩
  | ended hf => exact ⟨rfl, rfl, hf⟩

omit hw hg hk in
private theorem run_silent (h : (s.step w st).1 = []) (n : Nat) : s.run w (n + 1) st = s.run w n (s.step w st).2 := by
  rw [run, h]
  rfl

omit hw hg hk in
private theorem SameOutcome.append {es : List Event} {r r' : List Event × Status} (h : SameOutcome r r') :
    SameOutcome (es ++ r.1, r.2) (es ++ r'.1, r'.2) :=
  ⟨congrArg (es ++ ·) h.1, h.2⟩

section

variable (hdrop : ∀ i : Nat, keep[i]? = some false → s.Superfluous i)

include hdrop

private theorem run_forward (n : Nat) (h : Related s keep st st') :
    ∃ k, SameOutcome (s.run w n st) ((s.retain keep).run w k st') := by
  induction n generalizing st st' with
  | zero => exact ⟨0, h.sameOutcome []⟩
  | succ n ih =>
    rcases step_related hw hg hk w hdrop h with ⟨hevents, hrel⟩ | ⟨hevents, hrel, -⟩
    · obtain ⟨k, hk⟩ := ih hrel
      refine ⟨k + 1, ?_⟩
      rw [run, run, hevents]
      exact SameOutcome.append hk
    · obtain ⟨k, hk⟩ := ih hrel
      exact ⟨k, by rwa [run_silent w hevents]⟩

private theorem run_backward (k : Nat) (h : Related s keep st st') :
    ∃ n, SameOutcome ((s.retain keep).run w k st') (s.run w n st) := by
  induction k generalizing st st' with
  | zero => exact ⟨0, (h.sameOutcome []).symm⟩
  | succ k ih =>
    -- the first run catches up in finitely many steps, as each brings it closer to the end
    generalize hd : left s st = d
    induction d using Nat.strongRecOn generalizing st with
    | ind d ihd =>
      rcases step_related hw hg hk w hdrop h with ⟨hevents, hrel⟩ | ⟨hevents, hrel, hleft⟩
      · obtain ⟨n, hn⟩ := ih hrel
        refine ⟨n + 1, ?_⟩
        rw [run, run, ← hevents]
        exact SameOutcome.append hn
      · obtain ⟨n, hn⟩ := ihd _ (hd ▸ hleft) hrel rfl
        exact ⟨n + 1, by rwa [run_silent w hevents]⟩

/-- Leaving out superfluous instructions cannot be seen. -/
theorem agree_retain : s.Agree (s.retain keep) := by
  have hstart (m : Machine) : Related s keep (.running 0 m) (.running 0 m) := by
    have : s.Tied 0 m m := ⟨rfl, fun _ => rfl, fun ⟨_, j, _, _, hj, _⟩ => by omega⟩
    exact newPlace_zero keep ▸ .running (Nat.zero_le _) this
  exact ⟨fun w m n => run_forward hw hg hk w hdrop n (hstart m),
    fun w m n => run_backward hw hg hk w hdrop n (hstart m)⟩

end

omit hg hk in
private theorem not_superfluous_of_isCompare (hc : s.instructions[i]? = some c) (hcc : c.isCompare = true) :
    ¬ s.Superfluous i := by
  rintro (⟨label, hf, -⟩ | ⟨-, j, prev, cur, -, -, hcur, hred⟩)
  · obtain ⟨short, hs, hshort⟩ := hw.fixups_short i label hf
    cases hc.symm.trans hs
    rw [Instruction.isCompare_of_short hshort] at hcc
    cases hcc
  · cases hc.symm.trans hcur
    rw [Instruction.not_isCompare_of_isReload (Instruction.isReload_of_isRedundant hred).1] at hcc
    cases hcc

omit hw hg in
/-- What stays lies behind the same instruction as before, if that stays. -/
theorem Behind.retain {first between first' between' : Nat → Instruction → Prop} (h : s.Behind first between i)
    (hki : keep[i]? = some true)
    (hfirst : ∀ (j : Nat) c, s.instructions[j]? = some c → first j c → keep[j]? = some true ∧
      first' (newPlace keep j) c)
    (hbetween : ∀ (k : Nat) c, keep[k]? = some true → between k c → between' (newPlace keep k) c) :
    (s.retain keep).Behind first' between' (newPlace keep i) := by
  obtain ⟨j, hj, ⟨c, hc, hcf⟩, hneutral, hlabels⟩ := h
  obtain ⟨hkj, hcf'⟩ := hfirst j c hc hcf
  have hlt' : newPlace keep i < keep.count true := by
    rw [← newPlace_of_le (Nat.le_refl _)]
    exact newPlace_lt hki (List.getElem?_eq_some_iff.mp hki).1
  refine ⟨newPlace keep j, newPlace_lt hkj hj, ⟨c, by rw [instructions_retain hk hkj, hc], hcf'⟩, ?_, ?_⟩
  · intro k' hjk hki' instr hinstr
    obtain ⟨k, hkk, rfl⟩ := exists_newPlace (Nat.lt_trans hki' hlt')
    rw [instructions_retain hk hkk] at hinstr
    refine hbetween k instr hkk (hneutral k ?_ ?_ instr hinstr)
    · exact Nat.lt_of_not_le fun hle => by have := newPlace_mono keep hle; omega
    · exact Nat.lt_of_not_le fun hle => by have := newPlace_mono keep hle; omega
  · intro k' hjk hki'
    rw [← Bool.not_eq_true]
    intro hl
    obtain ⟨q, hq, rfl⟩ := isLabelled_retain hl
    have hqi : q ≤ i := le_of_newPlace_le hki hki'
    have hjq : j < q := Nat.lt_of_not_le fun hle => by have := newPlace_mono keep hle; omega
    rw [hlabels q hjq hqi] at hq
    cases hq

omit hg in
theorem keep_of_isCompare (hdrop : ∀ i : Nat, keep[i]? = some false → s.Superfluous i) {j : Nat}
    (hc : s.instructions[j]? = some c) (hcc : c.isCompare = true) : keep[j]? = some true := by
  have hjlt : j < keep.length := by
    have := (Array.getElem?_eq_some_iff.mp hc).1
    omega
  cases hb : keep[j]? with
  | none => exact absurd (List.getElem?_eq_none_iff.mp hb) (by omega)
  | some b =>
    cases b with
    | true => rfl
    | false => exact absurd (hdrop j hb) (not_superfluous_of_isCompare hw hc hcc)

/-- What stays is guarded as before: a compare stays, and so do the labels around it. -/
theorem Guarded.retain (hdrop : ∀ i : Nat, keep[i]? = some false → s.Superfluous i) :
    (s.retain keep).Guarded := by
  intro i' label cond offset hf hi
  have hlt' : i' < keep.count true := by
    have := (hw.retain hk).fixup_lt hf
    rwa [size_retain hk, newPlace_of_le (by omega)] at this
  obtain ⟨i, hki, rfl⟩ := exists_newPlace hlt'
  rw [mem_fixups_retain hki] at hf
  rw [instructions_retain hk hki] at hi
  exact Behind.retain hk (hg i label cond offset hf hi) hki
    (fun j c hc hcc => ⟨keep_of_isCompare hw hk hdrop hc hcc, hcc⟩) fun k c _ hr => hr

end Simulation

/-- What a sweep removes: branches to the next instruction, and what is redundant behind the
instruction before. -/
private theorem keepFrom_drops {dropped : List Nat} {labelled : Nat → Bool} {prev : Option Instruction} {k : Nat}
    {is : List Instruction} (h : (keepFrom dropped labelled prev i is)[k]? = some false) :
    i + k ∈ dropped ∨ (labelled (i + k) = false ∧ ∃ p cur, is[k]? = some cur ∧ isRedundant p cur = true ∧
      ((k = 0 ∧ prev = some p) ∨ ∃ j, k = j + 1 ∧ is[j]? = some p)) := by
  induction is generalizing prev i k with
  | nil => simp [keepFrom] at h
  | cons cur rest ih =>
    cases k with
    | zero =>
      simp only [keepFrom, List.getElem?_cons_zero, Option.some.injEq, Bool.and_eq_false_iff,
        Bool.not_eq_false', List.contains_iff_mem] at h
      rcases h with h | h
      · exact .inl h
      · cases prev with
        | none => cases h
        | some p =>
          simp only [Bool.and_eq_true, Bool.not_eq_true'] at h
          exact .inr ⟨h.2, p, cur, rfl, h.1, .inl ⟨rfl, rfl⟩⟩
    | succ k =>
      simp only [keepFrom, List.getElem?_cons_succ] at h
      rw [← Nat.add_assoc, Nat.add_right_comm]
      rcases ih h with hd | ⟨hl, p, c, hc, hr, hp⟩
      · exact .inl hd
      · refine .inr ⟨hl, p, c, hc, hr, .inr ?_⟩
        rcases hp with ⟨rfl, hp⟩ | ⟨j, rfl, hj⟩
        · rw [Option.ite_none_right_eq_some] at hp
          exact ⟨0, rfl, hp.2⟩
        · exact ⟨j + 1, rfl, hj⟩

theorem superfluous_of_keeps (h : s.keeps[i]? = some false) : s.Superfluous i := by
  rcases keepFrom_drops h with hd | ⟨hl, p, cur, hcur, hr, hp⟩
  · rw [Nat.zero_add] at hd
    simp only [branchesToNext, List.mem_filterMap, Prod.exists, Option.ite_none_right_eq_some,
      Option.some.injEq] at hd
    obtain ⟨j, label, hf, hl, rfl⟩ := hd
    exact .inl ⟨label, hf, hl⟩
  · rw [Nat.zero_add] at hl
    rcases hp with ⟨-, hp⟩ | ⟨j, rfl, hj⟩
    · cases hp
    · exact .inr ⟨hl, j, p, cur, rfl, by simpa using hj, by simpa using hcur, hr⟩

/-- Cleanup cannot be seen. -/
theorem agree_clean (hw : s.WellFormed) (hg : s.Guarded) : s.Agree s.clean := by
  have hround (t : Stream) (h : s.Agree t ∧ t.WellFormed ∧ t.Guarded) :
      s.Agree t.cleanRound ∧ t.cleanRound.WellFormed ∧ t.cleanRound.Guarded := by
    obtain ⟨ha, hw, hg⟩ := h
    have hdrop (i : Nat) : t.keeps[i]? = some false → t.Superfluous i := superfluous_of_keeps
    exact ⟨ha.trans (agree_retain hw hg t.keeps_length hdrop), hw.retain t.keeps_length,
      hg.retain hw t.keeps_length hdrop⟩
  exact (clean_keeps hround s ⟨.refl s, hw, hg⟩).1

end Stream

end DirectPage
