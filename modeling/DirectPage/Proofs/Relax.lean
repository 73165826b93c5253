import DirectPage.Proofs.Checked
import DirectPage.Proofs.Encoding

/-! Taking long forms of branches: what a round may change, and that at the end every branch
reaches its label. -/
namespace DirectPage.Stream

def Reaches (s : Stream) (instrs : Array Instruction) (i label : Nat) : Prop :=
  ∃ instr field kind d, instrs[i]? = some instr ∧ instr.branchField? = some (field, kind) ∧
    s.displacement s.offsets i label instr = .ok d ∧ kind.inRange d = true

def Lengthened (fixups : List (Nat × Nat)) (before after : Array Instruction) : Prop :=
  after.size = before.size ∧ ∀ (i : Nat) old, before[i]? = some old → ∃ new, after[i]? = some new ∧
    (new = old ∨ (old.relaxed? = some new ∧ ∃ label, (i, label) ∈ fixups))

private def shorts (instrs : Array Instruction) : Nat :=
  instrs.toList.countP fun i => i.relaxed?.isSome

variable {long instr : Instruction} {instrs : Array Instruction} {fixups : List (Nat × Nat)}

theorem relaxed?_of_relaxed? {i : Instruction} (h : i.relaxed? = some long) :
    long.relaxed? = none := by
  cases i <;> cases h <;> rfl

theorem Lengthened.refl (fixups : List (Nat × Nat)) (instrs : Array Instruction) :
    Lengthened fixups instrs instrs :=
  ⟨rfl, fun _ old h => ⟨old, h, .inl rfl⟩⟩

theorem Lengthened.trans {a b c : Array Instruction} (hab : Lengthened fixups a b) (hbc : Lengthened fixups b c) :
    Lengthened fixups a c := by
  refine ⟨hbc.1.trans hab.1, fun i old ho => ?_⟩
  obtain ⟨mid, hm, hom⟩ := hab.2 i old ho
  obtain ⟨new, hn, hmn⟩ := hbc.2 i mid hm
  refine ⟨new, hn, ?_⟩
  rcases hom with rfl | ⟨hr, hl⟩
  · exact hmn
  · rcases hmn with rfl | ⟨hr', -⟩
    · exact .inr ⟨hr, hl⟩
    · rw [relaxed?_of_relaxed? hr] at hr'
      cases hr'

theorem Lengthened.set {i label : Nat} (hf : (i, label) ∈ fixups) (hi : instrs[i]? = some instr)
    (hr : instr.relaxed? = some long) : Lengthened fixups instrs (instrs.setIfInBounds i long) := by
  refine ⟨Array.size_setIfInBounds, fun j old ho => ?_⟩
  obtain ⟨hlt, -⟩ := Array.getElem?_eq_some_iff.mp hi
  by_cases hij : i = j
  · subst hij
    obtain rfl : instr = old := Option.some.inj (hi.symm.trans ho)
    exact ⟨long, Array.getElem?_setIfInBounds_self_of_lt hlt, .inr ⟨hr, label, hf⟩⟩
  · exact ⟨old, by rw [Array.getElem?_setIfInBounds_ne hij, ho], .inl rfl⟩

private theorem shorts_set {i : Nat} (hi : instrs[i]? = some instr) (hr : instr.relaxed? = some long) :
    shorts (instrs.setIfInBounds i long) < shorts instrs := by
  obtain ⟨hlt, hget⟩ := Array.getElem?_eq_some_iff.mp hi
  have hpos : 0 < shorts instrs := by
    refine List.countP_pos_iff.mpr ⟨instr, ?_, by rw [hr]; rfl⟩
    rw [← hget]
    exact Array.getElem_mem_toList hlt
  rw [shorts, Array.toList_setIfInBounds, List.countP_set (by simpa using hlt)]
  simp only [Array.getElem_toList, hget, hr, relaxed?_of_relaxed? hr, Option.isSome_some, if_true,
    Option.isSome_none, Bool.false_eq_true, if_false, Nat.add_zero]
  rw [shorts] at hpos ⊢
  omega

section Round

variable {s : Stream} {relaxing : Bool}

variable {instrs next : Array Instruction} {fs : List (Nat × Nat)} {t : Stream}

/-- One branch reaches its label as it is, or takes its long form. -/
theorem relaxBranch_cases {offsets : Array Nat} {i label : Nat}
    (h : s.relaxBranch relaxing offsets instrs (i, label) = .ok next) :
    (next = instrs ∧ ∃ instr field kind d, instrs[i]? = some instr ∧
      instr.branchField? = some (field, kind) ∧ s.displacement offsets i label instr = .ok d ∧
      kind.inRange d = true) ∨
    ∃ instr long, instrs[i]? = some instr ∧ instr.relaxed? = some long ∧
      next = instrs.setIfInBounds i long := by
  simp only [relaxBranch] at h
  split at h
  · cases h
  · next instr hi =>
    obtain ⟨d, hd, h⟩ := bind_eq_ok.mp h
    split at h
    · cases h
    · next field kind hk =>
      split at h
      · next hr =>
        cases h
        exact .inl ⟨rfl, instr, field, kind, d, hi, hk, hd, hr⟩
      · split at h
        · next long hl =>
          split at h
          · cases h
            exact .inr ⟨instr, long, hi, hl, rfl⟩
          · cases h
        · cases h

private theorem relaxBranches (hfs : ∀ f ∈ fs, f ∈ s.fixups)
    (h : fs.foldlM (s.relaxBranch relaxing s.offsets) instrs = .ok next) :
    Lengthened s.fixups instrs next ∧ shorts next ≤ shorts instrs ∧
      (shorts instrs ≤ shorts next →
        next = instrs ∧ ∀ i label, (i, label) ∈ fs → s.Reaches instrs i label) := by
  induction fs generalizing instrs with
  | nil =>
    cases h
    exact ⟨.refl _ _, Nat.le_refl _, fun _ => ⟨rfl, by simp⟩⟩
  | cons f fs ih =>
    obtain ⟨i, label⟩ := f
    rw [List.foldlM_cons] at h
    obtain ⟨mid, hm, h⟩ := bind_eq_ok.mp h
    obtain ⟨hlen, hle, hstay⟩ := ih (fun f hf => hfs f (List.mem_cons_of_mem _ hf)) h
    rcases relaxBranch_cases hm with ⟨rfl, hreach⟩ | ⟨instr, long, hi, hr, rfl⟩
    · refine ⟨hlen, hle, fun hge => ?_⟩
      obtain ⟨rfl, hall⟩ := hstay hge
      refine ⟨rfl, fun j l hf => ?_⟩
      rcases List.mem_cons.mp hf with he | hf
      · cases he
        exact hreach
      · exact hall j l hf
    · have hlt := shorts_set hi hr
      refine ⟨(Lengthened.set (hfs _ List.mem_cons_self) hi hr).trans hlen, by omega, by omega⟩

/-- Some of the branches may have taken their long form. -/
theorem foldlM_relaxBranch (hfs : ∀ f ∈ fs, f ∈ s.fixups)
    (h : fs.foldlM (s.relaxBranch relaxing s.offsets) instrs = .ok next) : Lengthened s.fixups instrs next :=
  (relaxBranches hfs h).1

/-- A round takes long forms and changes nothing else. -/
theorem relaxRound_spec (h : s.relaxRound relaxing = .ok t) :
    t = { s with instructions := t.instructions } ∧ Lengthened s.fixups s.instructions t.instructions := by
  obtain ⟨instrs, hfold, h⟩ := bind_eq_ok.mp h
  cases h
  exact ⟨rfl, foldlM_relaxBranch (fun _ hf => hf) hfold⟩

/-- A round that leaves as many short branches changes nothing, since all of them reach their labels. -/
theorem relaxRound_stays (h : s.relaxRound relaxing = .ok t) (hge : ¬ t.shortBranches < s.shortBranches) :
    t = s ∧ ∀ i label, (i, label) ∈ s.fixups → s.Reaches s.instructions i label := by
  obtain ⟨instrs, hfold, h⟩ := bind_eq_ok.mp h
  cases h
  obtain ⟨-, -, hstay⟩ := relaxBranches (fun _ hf => hf) hfold
  obtain ⟨rfl, hall⟩ := hstay (Nat.le_of_not_lt hge)
  exact ⟨rfl, hall⟩

end Round

/-- At the end every branch reaches its label, and only waiting branches were lengthened. -/
theorem relax_spec {s t : Stream} {relaxing : Bool} (h : s.relax relaxing = .ok t) :
    t = { s with instructions := t.instructions } ∧
      Lengthened s.fixups s.instructions t.instructions ∧
      ∀ i label, (i, label) ∈ s.fixups → t.Reaches t.instructions i label := by
  fun_induction relax s relaxing with
  | case1 s e he => cases h
  | case2 s next hround hlt ih =>
    obtain ⟨hnext, hfirst⟩ := relaxRound_spec hround
    obtain ⟨heq, hlen, hall⟩ := ih h
    rw [hnext] at heq hlen hall
    exact ⟨heq, hfirst.trans hlen, hall⟩
  | case3 s next hround hge =>
    cases h
    obtain ⟨rfl, hall⟩ := relaxRound_stays hround hge
    exact ⟨rfl, .refl _ _, hall⟩

end DirectPage.Stream
