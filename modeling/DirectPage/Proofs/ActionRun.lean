import DirectPage.Proofs.Actions

/-! Runs of a list of changes to a stream: instructions one behind the other, and branches that skip to where
their label is bound. The stream that the changes make runs the same way. -/
namespace DirectPage

def Instruction.isPlain (i : Instruction) : Bool :=
  match i.flow, i.operand? with
  | .next, some (.label _) => false
  | .next, _ => true
  | _, _ => false

variable {i : Instruction}

theorem Instruction.flow_of_isPlain (h : i.isPlain = true) : i.flow = .next := by
  unfold isPlain at h
  split at h
  · cases h
  · assumption
  · cases h

theorem Instruction.operand?_of_isPlain (h : i.isPlain = true) (l : Nat) : i.operand? ≠ some (.label l) := by
  intro ho
  rw [isPlain, flow_of_isPlain h, ho] at h
  cases h

theorem Instruction.mapOperand_value (h : i.isPlain = true) (w : World) : i.mapOperand w.value = i := by
  have hvalue (imm : Imm) (himm : ∀ l, imm ≠ .label l) : w.value imm = imm := by
    cases imm with
    | label l => exact absurd rfl (himm l)
    | _ => rfl
  cases i with
  | immediate op imm | absolute op imm | regAluImm op dst imm | floatMemAbs op prec freg imm =>
    simp only [mapOperand, hvalue imm fun l he => operand?_of_isPlain h l (by rw [he]; rfl)]
  | _ => rfl

namespace Machine

def advance (m : Machine) (i : Instruction) : Checked Machine := if i.isPlain then m.exec i else abort

def advanceAll (m : Machine) (is : List Instruction) : Checked Machine := is.foldlM advance m

@[simp] theorem advanceAll_nil (m : Machine) : m.advanceAll [] = .ok m := rfl

@[simp] theorem advanceAll_cons (m : Machine) (i : Instruction) (is : List Instruction) :
    m.advanceAll (i :: is) = m.advance i >>= (advanceAll · is) := List.foldlM_cons

theorem advanceAll_append (m : Machine) (is js : List Instruction) :
    m.advanceAll (is ++ js) = m.advanceAll is >>= (advanceAll · js) := List.foldlM_append

end Machine

namespace Action

def goes (flags : Flags) : Option BranchCond → Bool
  | none => true
  | some cond => cond.taken flags

def step : Option Nat × Machine → Action → Checked (Option Nat × Machine)
  | (none, m), emit i => (none, ·) <$> m.advance i
  | (none, m), branch cond label => .ok (if goes m.flags cond then some label else none, m)
  | (some label, m), define label' => .ok (if label' = label then none else some label, m)
  | st, _ => .ok st

def run (st : Option Nat × Machine) (as : List Action) : Checked (Option Nat × Machine) := as.foldlM step st

variable {st : Option Nat × Machine} {m : Machine}

@[simp] theorem run_nil : run st [] = .ok st := rfl

@[simp] theorem run_cons (a : Action) (as : List Action) : run st (a :: as) = step st a >>= (run · as) :=
  List.foldlM_cons

theorem run_append (as bs : List Action) : run st (as ++ bs) = run st as >>= (run · bs) :=
  List.foldlM_append

theorem run_emit (is : List Instruction) : run (none, m) (is.map .emit) = (none, ·) <$> m.advanceAll is := by
  induction is generalizing m with
  | nil => rfl
  | cons i is ih =>
    rw [List.map_cons, run_cons, Machine.advanceAll_cons, step]
    rcases m.advance i with e | m1
    · rfl
    · exact ih

theorem run_skip (label : Nat) {as : List Action} (h : .define label ∉ as) :
    run (some label, m) as = .ok (some label, m) := by
  induction as with
  | nil => rfl
  | cons a as ih =>
    have hstep : step (some label, m) a = .ok (some label, m) := by
      cases a with
      | define l =>
        rw [step, if_neg]
        rintro rfl
        exact h List.mem_cons_self
      | _ => rfl
    rw [run_cons, hstep, ok_bind, ih fun hm => h (List.mem_cons_of_mem _ hm)]

end Action

namespace Stream

/-- Labels are bound once, and no branch to a label stands behind where it is bound. -/
def Admits (s : Stream) : List Action → Prop
  | [] => True
  | .branch cond label :: as => s.labels[label]? = some none ∧ (s.act (.branch cond label)).Admits as
  | .define label :: as => s.labels[label]? = some none ∧ (s.act (.define label)).Admits as
  | a :: as => (s.act a).Admits as

variable {s t : Stream} {a : Action} {as bs : List Action}

theorem Admits.tail (h : s.Admits (a :: as)) : (s.act a).Admits as := by
  cases a with
  | branch | define => exact h.2
  | _ => exact h

theorem admits_append : s.Admits (as ++ bs) ↔ s.Admits as ∧ (s.acts as).Admits bs := by
  induction as generalizing s with
  | nil => simp [Admits]
  | cons a as ih => cases a <;> simp [Admits, ih, and_assoc]

theorem admits_emit (is : List Instruction) : s.Admits (is.map .emit) := by
  induction is generalizing s with
  | nil => trivial
  | cons i is ih => exact ih (s := s.emit i)

theorem size_act_le (s : Stream) (a : Action) : s.instructions.size ≤ (s.act a).instructions.size := by
  cases a <;> simp [act, emit, emitBranch, newLabel, define]

theorem size_acts_le (s : Stream) (as : List Action) : s.instructions.size ≤ (s.acts as).instructions.size := by
  induction as generalizing s with
  | nil => exact Nat.le_refl _
  | cons a as ih => exact Nat.le_trans (s.size_act_le a) (ih _)

variable {i label : Nat}

theorem instructions_acts (hi : i < s.instructions.size) : (s.acts as).instructions[i]? = s.instructions[i]? := by
  induction as generalizing s with
  | nil => rfl
  | cons a as ih =>
    rw [acts_cons, ih (Nat.lt_of_lt_of_le hi (s.size_act_le a))]
    cases a with
    | emit | branch => exact Array.getElem?_push_lt hi |>.trans (Array.getElem?_eq_getElem hi).symm
    | _ => rfl

theorem mem_fixups_acts (hi : i < s.instructions.size) : (i, label) ∈ (s.acts as).fixups ↔ (i, label) ∈ s.fixups := by
  induction as generalizing s with
  | nil => rfl
  | cons a as ih =>
    rw [acts_cons, ih (Nat.lt_of_lt_of_le hi (s.size_act_le a))]
    cases a with
    | branch cond l =>
      simp only [act, emitBranch, List.mem_append, List.mem_singleton, Prod.mk.injEq]
      exact ⟨fun h => h.resolve_right fun he => by omega, .inl⟩
    | _ => rfl

/-- A label that is bound stays so. -/
theorem labels_acts (h : s.Admits as) {d : LabelDef} (hl : s.labels[label]? = some (some d)) :
    (s.acts as).labels[label]? = some (some d) := by
  induction as generalizing s with
  | nil => exact hl
  | cons a as ih =>
    refine ih h.tail ?_
    cases a with
    | emit | branch => exact hl
    | newLabel =>
      simp only [act, newLabel]
      rw [List.getElem?_append_left (List.getElem?_eq_some_iff.mp hl).1, hl]
    | define l =>
      have hne : l ≠ label := by
        rintro rfl
        rw [h.1] at hl
        cases hl
      simp only [act, define, List.getElem?_set_ne hne, hl]

theorem labelPlace?_acts (h : s.labels[label]? = some none) (ha : (s.define label).Admits as) :
    ((s.define label).acts as).labelPlace? label = some s.instructions.size := by
  have hlt := (List.getElem?_eq_some_iff.mp h).1
  rw [labelPlace?, labels_acts ha (d := .instr s.instructions.size) (by simp [define, hlt])]
  rfl

def Forward (s : Stream) : Prop := ∀ i label p, (i, label) ∈ s.fixups → s.labelPlace? label = some p → i < p

theorem Forward.acts (hw : s.WellFormed) (h : s.Forward) (ha : s.Admits as) : (s.acts as).Forward := by
  induction as generalizing s with
  | nil => exact h
  | cons a as ih =>
    refine ih (hw.act a) ?_ ha.tail
    intro i label p hf hp
    cases a with
    | emit instr => exact h i label p hf hp
    | branch cond l =>
      simp only [act, emitBranch, List.mem_append, List.mem_singleton, Prod.mk.injEq] at hf
      rcases hf with hf | ⟨rfl, rfl⟩
      · exact h i label p hf hp
      · have hnone : s.labelPlace? label = none := by
          rw [labelPlace?, ha.1]
          rfl
        exact absurd (hnone.symm.trans hp) (by simp)
    | newLabel =>
      have hsame : ((s.labels ++ [none])[label]?).join = (s.labels[label]?).join := by
        rw [List.getElem?_append]
        by_cases hlt : label < s.labels.length
        · rw [if_pos hlt]
        · rw [if_neg hlt, List.getElem?_eq_none (Nat.le_of_not_lt hlt), List.getElem?_singleton]
          split <;> rfl
      rw [labelPlace?, act, newLabel, hsame] at hp
      exact h i label p hf hp
    | define l =>
      by_cases hl : l = label
      · subst hl
        simp only [labelPlace?, act, define,
          List.getElem?_set_self (List.getElem?_eq_some_iff.mp ha.1).1] at hp
        cases hp
        exact hw.fixup_lt hf
      · simp only [labelPlace?, act, define, List.getElem?_set_ne hl] at hp
        exact h i label p hf hp

def Leads (s : Stream) (w : World) (st st' : Status) : Prop := ∃ n, (s.run w n st).2 = st'

variable {w : World} {st st' st'' : Status}

theorem Leads.refl (s : Stream) (w : World) (st : Status) : s.Leads w st st := ⟨0, rfl⟩

theorem Leads.head (h : (s.step w st).2 = st') (h' : s.Leads w st' st'') : s.Leads w st st'' := by
  obtain ⟨n, hn⟩ := h'
  exact ⟨n + 1, by rw [run, h, hn]⟩

theorem Leads.trans (h : s.Leads w st st') (h' : s.Leads w st' st'') : s.Leads w st st'' := by
  obtain ⟨n, hn⟩ := h
  induction n generalizing st with
  | zero =>
    cases hn
    exact h'
  | succ n ih => exact .head rfl (ih hn)

def entry (t s : Stream) : Option Nat × Machine → Status
  | (none, m) => .running s.instructions.size m
  | (some label, m) =>
    match t.labelPlace? label with
    | some p => .running p m
    | none => .ended .lost m

private theorem step_emit (as : List Action) (hw : s.WellFormed) {i : Instruction} (hi : i.isPlain = true) (w : World)
    (m : Machine) :
    (((s.emit i).acts as).step w (.running s.instructions.size m)).2 =
      match m.exec i with
      | .ok m' => .running (s.instructions.size + 1) m'
      | .error e => .ended (.faulted e) m := by
  have hsize : s.instructions.size < (s.emit i).instructions.size := by simp [emit]
  have hget : ((s.emit i).acts as).instructions[s.instructions.size]? = some i := by
    rw [instructions_acts hsize]
    exact Array.getElem?_push_size
  have hlookup : ((s.emit i).acts as).fixups.lookup s.instructions.size = none := by
    rw [Option.eq_none_iff_forall_ne_some]
    intro label hl
    rw [lookup_eq_some_iff ((hw.emit i).acts as), mem_fixups_acts hsize] at hl
    exact absurd (hw.fixup_lt hl) (Nat.lt_irrefl _)
  simp only [step, hget, hlookup, World.perform, Instruction.flow_of_isPlain hi, Instruction.mapOperand_value hi]
  rcases m.exec i with e | m' <;> rfl

private theorem step_branch (as : List Action) (hw : s.WellFormed) (cond : Option BranchCond) (label : Nat) (w : World)
    (m : Machine) :
    (((s.emitBranch cond label).acts as).step w (.running s.instructions.size m)).2 =
      if Action.goes m.flags cond then
        entry ((s.emitBranch cond label).acts as) (s.emitBranch cond label) (some label, m)
      else .running (s.instructions.size + 1) m := by
  have hsize : s.instructions.size < (s.emitBranch cond label).instructions.size := by simp [emitBranch]
  have hget : ((s.emitBranch cond label).acts as).instructions[s.instructions.size]? =
      (s.emitBranch cond label).instructions[s.instructions.size]? := instructions_acts hsize
  have hlookup : ((s.emitBranch cond label).acts as).fixups.lookup s.instructions.size = some label := by
    rw [lookup_eq_some_iff ((hw.emitBranch cond label).acts as), mem_fixups_acts hsize]
    simp [emitBranch]
  cases cond with
  | none =>
    rw [show (s.emitBranch none label).instructions[s.instructions.size]? = some (.bra 0#32) from
      Array.getElem?_push_size] at hget
    simp only [step, hget, hlookup, branch]
    rfl
  | some cond =>
    rw [show (s.emitBranch (some cond) label).instructions[s.instructions.size]? = some (.branch cond 0#32) from
      Array.getElem?_push_size] at hget
    simp only [step, hget, hlookup, branch]
    rfl

/-- A run from a status comes to where a run of changes came, given the stream that these led to. Nothing is said
of changes that went beyond plain instructions. -/
def Follows (t : Stream) (w : World) (st : Status) (s : Stream) : Checked (Option Nat × Machine) → Prop
  | .ok r => t.Leads w st (entry t s r)
  | .error e => e = .abort ∨ ∃ m, t.Leads w st (.ended (.faulted e) m)

theorem Leads.follows (h : t.Leads w st st') {x : Checked (Option Nat × Machine)} (h' : t.Follows w st' s x) :
    t.Follows w st s x := by
  rcases x with e | r
  · rcases h' with he | ⟨m, hm⟩
    · exact .inl he
    · exact .inr ⟨m, h.trans hm⟩
  · exact h.trans h'

/-- A stream that was made by changes does what they do. -/
theorem follows_acts (hw : s.WellFormed) (ha : s.Admits (as ++ bs)) (w : World) (r : Option Nat × Machine) :
    (s.acts (as ++ bs)).Follows w (entry (s.acts (as ++ bs)) s r) (s.acts as) (Action.run r as) := by
  induction as generalizing s r with
  | nil => exact .refl _ _ _
  | cons a as ih =>
    have ih := ih (hw.act a) ha.tail
    rw [Action.run_cons]
    obtain ⟨_ | label, m⟩ := r
    · cases a with
      | emit i =>
        rw [Action.step, Machine.advance]
        split
        · next hi =>
          have hstep := step_emit (as ++ bs) hw hi w m
          rcases he : m.exec i with e | m1
          · rw [he] at hstep
            exact .inr ⟨m, .head hstep (.refl _ _ _)⟩
          · rw [he] at hstep
            refine Leads.follows (.head hstep (.refl _ _ _)) ?_
            have hnext := ih (none, m1)
            rwa [entry, act, emit, Array.size_push] at hnext
        · exact .inl rfl
      | branch cond label =>
        have hstep := step_branch (as ++ bs) hw cond label w m
        rw [Action.step, ok_bind]
        refine Leads.follows (.head hstep (.refl _ _ _)) ?_
        split
        · exact ih (some label, m)
        · have hnext := ih (none, m)
          rwa [entry, show (s.act (.branch cond label)).instructions.size = s.instructions.size + 1 by
            simp [act, emitBranch]] at hnext
      | newLabel | define label => exact ih (none, m)
    · cases a with
      | define l =>
        rw [Action.step, ok_bind]
        split
        · next hl =>
          subst hl
          have hplace : ((s.define l).acts (as ++ bs)).labelPlace? l = some s.instructions.size :=
            labelPlace?_acts ha.1 ha.tail
          have hnext := ih (none, m)
          rwa [entry, List.cons_append, acts_cons, act, hplace]
        · exact ih (some label, m)
      | _ => exact ih (some label, m)

theorem Forward.retain (h : s.Forward) (keep : List Bool) : (s.retain keep).Forward := by
  intro j label p hf hp
  rw [labelPlace?_retain, Option.map_eq_some_iff] at hp
  obtain ⟨q, hq, rfl⟩ := hp
  simp only [retain_eq, List.mem_filterMap, Prod.exists, Option.ite_none_right_eq_some, Option.some.injEq,
    Prod.mk.injEq] at hf
  obtain ⟨i, l, hf, hi, rfl, rfl⟩ := hf
  exact newPlace_lt hi (h i l q hf hq)

theorem Forward.clean (h : s.Forward) : s.clean.Forward :=
  clean_keeps (fun s h => h.retain s.keeps) s h

private theorem step_advances (hw : s.WellFormed) (h : s.Forward) {j : Nat} {m m' : Machine}
    (hs : (s.step w (.running i m)).2 = .running j m') : i < j ∧ j ≤ s.instructions.size := by
  simp only [step] at hs
  split at hs
  · cases hs
  · next instr hi =>
    have hlt := (Array.getElem?_eq_some_iff.mp hi).1
    split at hs
    · next label hl =>
      simp only [branch] at hs
      split at hs
      · split at hs
        · next p hp =>
          cases hs
          refine ⟨h i label j ((lookup_eq_some_iff hw).mp hl) hp, ?_⟩
          simp only [labelPlace?] at hp
          split at hp
          · next q hq =>
            cases hp
            exact hw.labels_le label j (Option.join_eq_some_iff.mp hq)
          · cases hp
        · cases hs
      · cases hs
        omega
    · have hnext (target : Word) (hc : (w.callTo i target m).2 = .running j m') :
          i < j ∧ j ≤ s.instructions.size := by
        simp only [World.callTo] at hc
        split at hc <;> cases hc
        omega
      simp only [World.perform] at hs
      split at hs
      · split at hs
        · exact hnext _ hs
        · cases hs
      · exact hnext _ hs
      · split at hs <;> cases hs
      · cases hs
      · cases hs
      · split at hs <;> cases hs
        omega

/-- A run in which every branch leads forward is no longer than the stream. -/
theorem Forward.leads_ended (hw : s.WellFormed) (h : s.Forward) {m m' : Machine} {x : Exit}
    (hi : i ≤ s.instructions.size) (hr : s.Leads w (.running i m) (.ended x m')) :
    ∃ n ≤ s.instructions.size + 1 - i, (s.run w n (.running i m)).2 = .ended x m' := by
  obtain ⟨n, hn⟩ := hr
  induction n generalizing i m with
  | zero => cases hn
  | succ n ih =>
    rw [run] at hn
    rcases hs : (s.step w (.running i m)).2 with ⟨j, m1⟩ | ⟨x1, m1⟩
    · obtain ⟨hij, hj⟩ := step_advances hw h hs
      rw [hs] at hn
      obtain ⟨k, hk, hrun⟩ := ih hj hn
      exact ⟨k + 1, by omega, by rw [run, hs, hrun]⟩
    · refine ⟨1, by omega, ?_⟩
      rw [hs, run_ended] at hn
      rw [run, hs, hn]
      rfl

end Stream

end DirectPage
