import DirectPage.Proofs.Layout

/-! Relaxation takes the long forms that are needed, and no others.

The branches of a stream that are long in the end are long in every choice of forms in which all branches reach their
labels, and if there is such a choice then relaxation does not fail. Both come from one fact: between two places of the
code there are never fewer bytes when more branches are long, so what reaches its label in a choice also reaches it
while fewer branches are long. -/
namespace DirectPage

variable {i long : Instruction} {kind : FixupKind}

theorem Instruction.size_le_of_relaxed? (h : i.relaxed? = some long) : i.size ≤ long.size := by
  cases i with
  | branch | bra =>
    cases h
    simp [size]
  | _ => cases h

theorem Instruction.size_le_of_branchField? {field : Nat} (h : i.branchField? = some (field, kind)) :
    0 < i.size ∧ i.size ≤ 5 := by
  cases i with
  | branch | branchLong | bra | brl => simp [size]
  | _ => cases h

theorem Instruction.branchField?_of_relaxed? (h : i.relaxed? = some long) :
    ∃ field, long.branchField? = some (field, .pcRel16) := by
  cases i with
  | branch | bra =>
    cases h
    exact ⟨_, rfl⟩
  | _ => cases h

/-- A branch without a long form has the wide field. -/
theorem Instruction.kind_of_relaxed?_none {field : Nat} (h : i.branchField? = some (field, kind))
    (hlong : i.relaxed? = none) : kind = .pcRel16 := by
  cases i with
  | branchLong | brl =>
    cases h
    rfl
  | branch | bra => cases hlong
  | _ => cases h

/-- A displacement nearer to the branch than one that fits. -/
theorem FixupKind.inRange_of_between {d near : Int} (hkind : kind.isPcRelative = true)
    (hd : kind.inRange d = true) (hnear : d ≤ near ∧ near ≤ 0 ∨ -5 ≤ near ∧ near ≤ d) : kind.inRange near = true := by
  cases kind with
  | pcRel8 =>
    have := inRange_pcRel8.mp hd
    exact inRange_pcRel8.mpr (by omega)
  | pcRel16 =>
    have := inRange_pcRel16.mp hd
    exact inRange_pcRel16.mpr (by omega)
  | _ => cases hkind

namespace Stream

section Distance

variable {fixups : List (Nat × Nat)} {before after : Array Instruction} {a b : Nat}

theorem startOf_le (is : List Instruction) (hab : a ≤ b) : startOf is a ≤ startOf is b := by
  rw [startOf, startOf, ← Nat.add_sub_cancel' hab, List.take_add, encodeAll, encodeAll, List.flatMap_append,
    List.length_append]
  exact Nat.le_add_right _ _

/-- Between two places there are at least as many bytes when more branches are long. -/
theorem Lengthened.spread (h : Lengthened fixups before after) (hab : a ≤ b) (hb : b ≤ before.size) :
    startOf before.toList b + startOf after.toList a ≤ startOf after.toList b + startOf before.toList a := by
  obtain ⟨n, rfl⟩ := Nat.exists_eq_add_of_le hab
  induction n with
  | zero => exact Nat.le_of_eq (Nat.add_comm _ _)
  | succ n ih =>
    have hlt : a + n < before.size := hb
    obtain ⟨new, hnew, hform⟩ := h.2 (a + n) before[a + n] (Array.getElem?_eq_getElem hlt)
    have hsize : before[a + n].size ≤ new.size := by
      rcases hform with rfl | ⟨hlong, -⟩
      · exact Nat.le_refl _
      · exact Instruction.size_le_of_relaxed? hlong
    have hold : before.toList[a + n]? = some before[a + n] := by simp
    have hspread := ih (Nat.le_add_right a n) (Nat.le_of_lt hlt)
    rw [← Nat.add_assoc, startOf_succ hold, startOf_succ (Array.getElem?_toList ▸ hnew)]
    omega

end Distance

def lengthen (s : Stream) (long : Nat → Bool) : Stream :=
  { s with instructions := s.instructions.mapIdx fun i instr =>
      if long i && s.fixups.any (·.1 == i) then instr.relaxed?.getD instr else instr }

def Fits (s : Stream) : Prop := ∀ i label, (i, label) ∈ s.fixups → s.Reaches s.instructions i label

/-- Branches in short form wait for labels that stand for places in the code. -/
def Waiting (s : Stream) : Prop := ∀ i label, (i, label) ∈ s.fixups →
  (∃ instr, s.instructions[i]? = some instr ∧ instr.relaxed?.isSome = true) ∧
    ∃ p ≤ s.instructions.size, s.labels[label]? = some (some (.instr p))

def Bound (s : Stream) : Prop := ∀ i label, (i, label) ∈ s.fixups →
  (∃ instr field kind, s.instructions[i]? = some instr ∧ instr.branchField? = some (field, kind)) ∧
    ∃ p ≤ s.instructions.size, s.labels[label]? = some (some (.instr p))

section Bound

variable {s : Stream} {L : Array Instruction}

theorem Waiting.bound (h : s.Waiting) : s.Bound := by
  intro i label hf
  obtain ⟨⟨instr, hi, hshort⟩, hlabel⟩ := h i label hf
  refine ⟨⟨instr, 1, .pcRel8, hi, ?_⟩, hlabel⟩
  cases instr with
  | branch | bra => rfl
  | _ => cases hshort

theorem Bound.lengthened (h : s.Bound) (hL : Lengthened s.fixups s.instructions L) :
    Bound { s with instructions := L } := by
  intro i label hf
  obtain ⟨⟨instr, field, kind, hi, hfield⟩, p, hp, hlabel⟩ := h i label hf
  refine ⟨?_, p, hL.1 ▸ hp, hlabel⟩
  obtain ⟨new, hnew, rfl | ⟨hlong, -⟩⟩ := hL.2 i instr hi
  · exact ⟨new, field, kind, hnew, hfield⟩
  · obtain ⟨field, hfield⟩ := Instruction.branchField?_of_relaxed? hlong
    exact ⟨new, field, _, hnew, hfield⟩

/-- How far a branch is from a label that stands for a place. -/
theorem displacement_of_bound {i label p : Nat} (instr : Instruction) (hi : i < s.instructions.size)
    (hp : p ≤ s.instructions.size) (hlabel : s.labels[label]? = some (some (.instr p))) :
    s.displacement s.offsets i label instr =
      .ok ((startOf s.instructions.toList p : Int) - ((startOf s.instructions.toList i + instr.size : Nat) : Int)) := by
  refine (displacement_eq_ok hi).mpr ⟨_, ?_, rfl⟩
  rw [labelOffset, hlabel]
  exact orFail_eq_ok.mpr (by rw [offsets_getElem?, if_pos hp])

/-- A branch that reaches its label when more branches are long also reaches it now. -/
theorem reaches_of_lengthened (hs : s.Bound) (hL : Lengthened s.fixups s.instructions L) {i label : Nat}
    (hf : (i, label) ∈ s.fixups) (hreach : Reaches { s with instructions := L } L i label) :
    ∃ instr field kind d, L[i]? = some instr ∧ instr.branchField? = some (field, kind) ∧
      s.displacement s.offsets i label instr = .ok d ∧ kind.inRange d = true := by
  obtain ⟨⟨old, _, _, hold, -⟩, p, hp, hlabel⟩ := hs i label hf
  obtain ⟨instr, field, kind, d, hi, hfield, hd, hrange⟩ := hreach
  have hlt := (Array.getElem?_eq_some_iff.mp hold).1
  refine ⟨instr, field, kind, _, hi, hfield, displacement_of_bound instr hlt hp hlabel, ?_⟩
  have hfar : displacement { s with instructions := L } _ i label instr =
      .ok ((startOf L.toList p : Int) - ((startOf L.toList i + instr.size : Nat) : Int)) :=
    displacement_of_bound instr (hL.1 ▸ hlt) (hL.1 ▸ hp) hlabel
  cases hd.symm.trans hfar
  obtain ⟨hpos, hsize⟩ := Instruction.size_le_of_branchField? hfield
  refine FixupKind.inRange_of_between (Instruction.isPcRelative_of_branchField? hfield) hrange ?_
  rcases Nat.le_total p i with hpi | hip
  · have hspread := hL.spread hpi (Nat.le_of_lt hlt)
    have hle := startOf_le s.instructions.toList hpi
    omega
  · have hspread := hL.spread hip hp
    have hle := startOf_le s.instructions.toList hip
    omega

end Bound

section Below

variable {s : Stream} {cur L : Array Instruction}

theorem relaxBranch_below (hs : s.Bound) (hc : Lengthened s.fixups s.instructions cur) (hL : Lengthened s.fixups cur L)
    (hfits : Fits { s with instructions := L }) {i label : Nat} (hf : (i, label) ∈ s.fixups) :
    ∃ next, s.relaxBranch true s.offsets cur (i, label) = .ok next ∧
      Lengthened s.fixups s.instructions next ∧ Lengthened s.fixups next L := by
  obtain ⟨⟨instr, field, kind, hi, hfield⟩, p, hp, hlabel⟩ := hs.lengthened hc i label hf
  have hi : cur[i]? = some instr := hi
  have hlt : i < s.instructions.size := hc.1 ▸ (Array.getElem?_eq_some_iff.mp hi).1
  have hd := displacement_of_bound instr hlt (hc.1 ▸ hp) hlabel
  obtain ⟨new, hnew, hform⟩ := hL.2 i instr hi
  simp only [relaxBranch, hi, hd, ok_bind, hfield]
  split
  · exact ⟨cur, rfl, hc, hL⟩
  · next hout =>
    have hlong : instr.relaxed? = some new := by
      rcases hform with rfl | ⟨hlong, -⟩
      · -- the branch has this form in the choice, where it reaches its label
        obtain ⟨instr, _, _, d, hi', hfield', hd', hin⟩ := reaches_of_lengthened hs (hc.trans hL) hf (hfits i label hf)
        cases hnew.symm.trans hi'
        cases hfield.symm.trans hfield'
        cases hd.symm.trans hd'
        exact absurd hin hout
      · exact hlong
    rw [hlong]
    refine ⟨cur.setIfInBounds i new, rfl, hc.trans (.set hf hi hlong), ?_, fun j old hold => ?_⟩
    · rw [Array.size_setIfInBounds, hL.1]
    · by_cases hij : i = j
      · subst hij
        rw [Array.getElem?_setIfInBounds_self_of_lt (Array.getElem?_eq_some_iff.mp hi).1] at hold
        exact ⟨new, hnew, .inl (Option.some.inj hold)⟩
      · rw [Array.getElem?_setIfInBounds_ne hij] at hold
        exact hL.2 j old hold

theorem relaxRound_below (hs : s.Bound) (hL : Lengthened s.fixups s.instructions L)
    (hfits : Fits { s with instructions := L }) :
    ∃ t, s.relaxRound true = .ok t ∧ Lengthened s.fixups t.instructions L := by
  have hbranch : ∀ f ∈ s.fixups, ∀ cur, Lengthened s.fixups s.instructions cur ∧ Lengthened s.fixups cur L →
      ∃ next, s.relaxBranch true s.offsets cur f = .ok next ∧
        Lengthened s.fixups s.instructions next ∧ Lengthened s.fixups next L :=
    fun f hf cur hc => relaxBranch_below hs hc.1 hc.2 hfits hf
  obtain ⟨cur, hfold, -, hc⟩ := foldlM_total _ hbranch ⟨.refl _ _, hL⟩
  exact ⟨_, by rw [relaxRound, hfold]; rfl, hc⟩

/-- Relaxation ends below every choice of forms that fits. -/
theorem relax_below (hs : s.Bound) (hL : Lengthened s.fixups s.instructions L)
    (hfits : Fits { s with instructions := L }) :
    ∃ t, s.relax true = .ok t ∧ Lengthened s.fixups t.instructions L := by
  fun_induction relax s true with
  | case1 s e he =>
    obtain ⟨t, ht, -⟩ := relaxRound_below hs hL hfits
    cases he.symm.trans ht
  | case2 s next hround hlt ih =>
    obtain ⟨t, ht, hbelow⟩ := relaxRound_below hs hL hfits
    cases hround.symm.trans ht
    obtain ⟨hnext, hlen⟩ := relaxRound_spec hround
    rw [hnext] at ih ⊢
    exact ih (hs.lengthened hlen) hbelow hfits
  | case3 s next hround hge =>
    obtain ⟨t, ht, hbelow⟩ := relaxRound_below hs hL hfits
    cases hround.symm.trans ht
    exact ⟨next, rfl, hbelow⟩

/-- A branch that cannot be made to reach its label has the wide field. -/
theorem relaxBranch_error (hs : s.Bound) (hc : Lengthened s.fixups s.instructions cur) {i label : Nat}
    (hf : (i, label) ∈ s.fixups) {e : Failure} (h : s.relaxBranch true s.offsets cur (i, label) = .error e) :
    ∃ value offset, e = .error (.fixupOutOfRange .pcRel16 value offset) := by
  obtain ⟨⟨instr, field, kind, hi, hfield⟩, p, hp, hlabel⟩ := hs.lengthened hc i label hf
  have hi : cur[i]? = some instr := hi
  have hlt : i < s.instructions.size := hc.1 ▸ (Array.getElem?_eq_some_iff.mp hi).1
  simp only [relaxBranch, hi, displacement_of_bound instr hlt (hc.1 ▸ hp) hlabel, ok_bind, hfield] at h
  split at h
  · cases h
  · cases hlong : instr.relaxed? with
    | some long =>
      rw [hlong] at h
      cases h
    | none =>
      rw [hlong] at h
      cases Instruction.kind_of_relaxed?_none hfield hlong
      cases h
      exact ⟨_, _, rfl⟩

theorem relax_error (hs : s.Bound) {e : Failure} (h : s.relax true = .error e) :
    ∃ value offset, e = .error (.fixupOutOfRange .pcRel16 value offset) := by
  fun_induction relax s true with
  | case1 s e' he =>
    cases h
    cases hfold : s.fixups.foldlM (s.relaxBranch true s.offsets) s.instructions with
    | ok instrs =>
      rw [relaxRound, hfold] at he
      cases he
    | error e' =>
      rw [relaxRound, hfold] at he
      cases he
      obtain ⟨past, ⟨i, label⟩, rest, cur, heq, hpast, hbranch⟩ := foldlM_eq_error hfold
      have hc := foldlM_relaxBranch (fun f hf => heq ▸ List.mem_append_left _ hf) hpast
      exact relaxBranch_error hs hc (heq ▸ by simp) hbranch
  | case2 s next hround hlt ih =>
    obtain ⟨hnext, hlen⟩ := relaxRound_spec hround
    rw [hnext] at ih h
    exact ih (hs.lengthened hlen) h
  | case3 => cases h

end Below

section Rounds

def rounds : Nat → Stream → Checked Stream
  | 0, s => .ok s
  | n + 1, s => s.relaxRound true >>= rounds n

/-- Relaxation takes no more rounds than there are short branches, until a round changes nothing or fails. -/
theorem relax_rounds (s : Stream) : ∃ n ≤ s.shortBranches,
    (∃ t, s.rounds n = .ok t ∧ t.relaxRound true = .ok t ∧ s.relax true = .ok t) ∨
      ∃ e, s.rounds (n + 1) = .error e ∧ s.relax true = .error e := by
  fun_induction relax s true with
  | case1 s e he => exact ⟨0, Nat.zero_le _, .inr ⟨e, by rw [rounds, he]; rfl, rfl⟩⟩
  | case2 s next hround hlt ih =>
    obtain ⟨n, hn, hend⟩ := ih
    refine ⟨n + 1, by omega, ?_⟩
    rw [rounds, rounds, hround]
    exact hend
  | case3 s next hround hge =>
    obtain ⟨rfl, -⟩ := relaxRound_stays hround hge
    exact ⟨0, Nat.zero_le _, .inl ⟨next, rfl, hround, rfl⟩⟩

end Rounds

section Choice

variable {s : Stream} {L : Array Instruction}

theorem getElem?_lengthen (s : Stream) (long : Nat → Bool) (i : Nat) : (s.lengthen long).instructions[i]? =
    s.instructions[i]?.map fun instr =>
      if long i && s.fixups.any (·.1 == i) then instr.relaxed?.getD instr else instr := by
  rw [lengthen, Array.getElem?_mapIdx]

theorem any_fixups {i : Nat} : s.fixups.any (·.1 == i) = true ↔ ∃ label, (i, label) ∈ s.fixups := by
  rw [List.any_eq_true]
  constructor
  · rintro ⟨⟨j, label⟩, hmem, hj⟩
    exact ⟨label, by rwa [← show j = i from beq_iff_eq.mp hj]⟩
  · rintro ⟨label, hmem⟩
    exact ⟨_, hmem, beq_self_eq_true i⟩

theorem lengthened_lengthen (s : Stream) (long : Nat → Bool) :
    Lengthened s.fixups s.instructions (s.lengthen long).instructions := by
  refine ⟨by simp [lengthen], fun i old hold => ?_⟩
  rw [getElem?_lengthen, hold, Option.map_some]
  split
  · next hlong =>
    refine ⟨_, rfl, ?_⟩
    cases hr : old.relaxed? with
    | none => exact .inl rfl
    | some r => exact .inr ⟨rfl, any_fixups.mp ((Bool.and_eq_true _ _).mp hlong).2⟩
  · exact ⟨old, rfl, .inl rfl⟩

def changed (s t : Stream) (i : Nat) : Bool := decide (t.instructions[i]? ≠ s.instructions[i]?)

theorem relaxed?_ne {i long : Instruction} (h : i.relaxed? = some long) : long ≠ i := by
  rintro rfl
  rw [relaxed?_of_relaxed? h] at h
  cases h

/-- Long forms of some of the branches that wait are a choice of them. -/
theorem lengthen_changed (h : Lengthened s.fixups s.instructions L) :
    s.lengthen (s.changed { s with instructions := L }) = { s with instructions := L } := by
  have hinstrs : (s.lengthen (s.changed { s with instructions := L })).instructions = L := by
    refine Array.ext_getElem? fun i => ?_
    rw [getElem?_lengthen]
    cases hold : s.instructions[i]? with
    | none =>
      rw [Array.getElem?_eq_none_iff] at hold
      rw [Array.getElem?_eq_none (h.1 ▸ hold)]
      rfl
    | some old =>
      obtain ⟨new, hnew, rfl | ⟨hlong, hfixup⟩⟩ := h.2 i old hold
      · have hsame : s.changed { s with instructions := L } i = false := by
          rw [changed, hold, hnew]
          simp
        rw [hsame, hnew]
        rfl
      · have hdiff : s.changed { s with instructions := L } i = true := by
          rw [changed, hold, hnew, decide_eq_true_eq]
          exact fun heq => relaxed?_ne hlong (Option.some.inj heq)
        rw [hdiff, any_fixups.mpr hfixup, hnew, Option.map_some, Bool.and_self, if_pos rfl, hlong]
        rfl
  exact congrArg (fun instrs => { s with instructions := instrs }) hinstrs

theorem chosen_of_below {t : Stream} {long : Nat → Bool} (ht : Lengthened s.fixups s.instructions t.instructions)
    (hbelow : Lengthened s.fixups t.instructions (s.lengthen long).instructions) {i : Nat}
    (hi : s.changed t i = true) : long i = true := by
  refine eq_true_of_ne_false fun hnot => ?_
  have hsame : (s.lengthen long).instructions[i]? = s.instructions[i]? := by
    rw [getElem?_lengthen, hnot]
    simp
  have hne : t.instructions[i]? ≠ s.instructions[i]? := of_decide_eq_true hi
  cases hold : s.instructions[i]? with
  | none =>
    rw [hold] at hne
    exact hne (Array.getElem?_eq_none (ht.1 ▸ Array.getElem?_eq_none_iff.mp hold))
  | some old =>
    obtain ⟨mid, hmid, rfl | ⟨hlong, -⟩⟩ := ht.2 i old hold
    · exact hne (hmid.trans hold.symm)
    · obtain ⟨new, hnew, hform⟩ := hbelow.2 i mid hmid
      cases (hsame.trans hold).symm.trans hnew
      rcases hform with heq | ⟨hagain, -⟩
      · exact relaxed?_ne hlong heq.symm
      · rw [relaxed?_of_relaxed? hlong] at hagain
        cases hagain

end Choice

/-- Relaxation takes long forms in rounds, no more of them than there are short branches. It succeeds if and only if
some choice of long forms lets every branch reach its label, it then makes the least such choice, and otherwise a
branch with the wide field is reported. -/
theorem relax_least {s : Stream} (hs : s.Waiting) :
    (∃ n ≤ s.shortBranches, (∃ t, s.rounds n = .ok t ∧ t.relaxRound true = .ok t ∧ s.relax true = .ok t) ∨
      ∃ e, s.rounds (n + 1) = .error e ∧ s.relax true = .error e) ∧
    ((∃ t, s.relax true = .ok t) ↔ ∃ long, (s.lengthen long).Fits) ∧
    (∀ t, s.relax true = .ok t → t.Fits ∧ t = s.lengthen (s.changed t) ∧
      ∀ long, (s.lengthen long).Fits → ∀ i, s.changed t i = true → long i = true) ∧
    ∀ e, s.relax true = .error e → ∃ value offset, e = .error (.fixupOutOfRange .pcRel16 value offset) := by
  have hchosen {t : Stream} (ht : s.relax true = .ok t) :
      Lengthened s.fixups s.instructions t.instructions ∧ t.Fits ∧ t = s.lengthen (s.changed t) := by
    obtain ⟨heq, hlen, hreach⟩ := relax_spec ht
    have hfixups : t.fixups = s.fixups := by rw [heq]
    refine ⟨hlen, fun i label hf => hreach i label (hfixups ▸ hf), ?_⟩
    rw [heq]
    exact (lengthen_changed hlen).symm
  refine ⟨s.relax_rounds, ⟨fun ⟨t, ht⟩ => ⟨s.changed t, ?_⟩, fun ⟨long, hlong⟩ => ?_⟩, fun t ht => ?_,
    fun e he => relax_error hs.bound he⟩
  · obtain ⟨-, hfits, heq⟩ := hchosen ht
    exact heq ▸ hfits
  · obtain ⟨t, ht, -⟩ := relax_below hs.bound (s.lengthened_lengthen long) hlong
    exact ⟨t, ht⟩
  · obtain ⟨hlen, hfits, heq⟩ := hchosen ht
    refine ⟨hfits, heq, fun long hlong i hi => ?_⟩
    obtain ⟨t', ht', hbelow⟩ := relax_below hs.bound (s.lengthened_lengthen long) hlong
    cases ht.symm.trans ht'
    exact chosen_of_below hlen hbelow hi

/-- The first branch goes over 127 bytes, among them the second one, which is too far from its label. The last branch
is near its label. -/
def cascade : Stream :=
  let s := ((Stream.empty "cascade" 3 []).emitBranch (some .eq) 0).emitBranch (some .ne) 1
  let s := (s.emitAll (List.replicate 125 (.implied .nop))).define 0
  let s := (s.emitAll (List.replicate 10 (.implied .nop))).define 1
  (s.emitBranch none 2).define 2

theorem relax_least_cascade : cascade.Waiting ∧ ∃ t, cascade.relax true = .ok t ∧
    (cascade.changed t 0, cascade.changed t 1, cascade.changed t 137) = (true, true, false) ∧
      ∀ long, (cascade.lengthen long).Fits → long 0 = true ∧ long 1 = true := by
  have hfixups : cascade.fixups = [(0, 0), (1, 1), (137, 2)] := by decide +kernel
  have hwait : cascade.Waiting := by
    intro i label hf
    rw [hfixups] at hf
    simp only [List.mem_cons, Prod.mk.injEq, List.not_mem_nil, or_false] at hf
    rcases hf with ⟨rfl, rfl⟩ | ⟨rfl, rfl⟩ | ⟨rfl, rfl⟩
    · exact ⟨⟨.branch .eq 0#32, by decide +kernel, rfl⟩, 127, by decide +kernel, by decide +kernel⟩
    · exact ⟨⟨.branch .ne 0#32, by decide +kernel, rfl⟩, 137, by decide +kernel, by decide +kernel⟩
    · exact ⟨⟨.bra 0#32, by decide +kernel, rfl⟩, 138, by decide +kernel, by decide +kernel⟩
  have hcheck : ((cascade.relax true).toOption.map fun t =>
      (cascade.changed t 0, cascade.changed t 1, cascade.changed t 137)) = some (true, true, false) := by
    decide +kernel
  cases ht : cascade.relax true with
  | error e =>
    rw [ht] at hcheck
    cases hcheck
  | ok t =>
    rw [ht] at hcheck
    have hchanged := Option.some.inj hcheck
    obtain ⟨-, -, hleast, -⟩ := relax_least hwait
    refine ⟨hwait, t, rfl, hchanged, fun long hlong => ⟨?_, ?_⟩⟩
    · exact (hleast t ht).2.2 long hlong 0 (congrArg (·.1) hchanged)
    · exact (hleast t ht).2.2 long hlong 1 (congrArg (·.2.1) hchanged)

end Stream

end DirectPage
