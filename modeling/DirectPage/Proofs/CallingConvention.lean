import DirectPage.Convention
import DirectPage.Proofs.Checked
import Mathlib.Data.List.Nodup

/-! Where the calling convention puts arguments.

Arguments that take registers have them to themselves, and the others fill the argument area of the
stack from its start without gaps. Who knows only the fixed arguments finds them at the same places. -/
namespace DirectPage

def ArgLoc.stackBytes : ArgLoc → Nat
  | .reg _ => 0
  | .stack _ size => size

def ArgLoc.totalBytes : List ArgLoc → Nat
  | [] => 0
  | loc :: rest => loc.stackBytes + totalBytes rest

namespace ArgState

def bank (st : ArgState) (ty : Ir.Ty) : List Register := if ty.isFloat then st.floats else st.ints

section Next

theorem next_cases (st : ArgState) (isFixed : Bool) (ty : Ir.Ty) :
    st.next isFixed ty = st.onStack ty ∨
      (∃ r floats, st.floats = r :: floats ∧ st.next isFixed ty = (.reg r, { st with floats := floats })) ∨
      ∃ r ints, st.ints = r :: ints ∧ st.next isFixed ty = (.reg r, { st with ints := ints }) := by
  unfold next
  split
  · exact .inl rfl
  · split
    · cases hf : st.floats with
      | nil => exact .inl rfl
      | cons r floats => exact .inr (.inl ⟨r, floats, rfl, rfl⟩)
    · cases hi : st.ints with
      | nil => exact .inl rfl
      | cons r ints => exact .inr (.inr ⟨r, ints, rfl, rfl⟩)

variable {st st' : ArgState} {isFixed : Bool} {ty : Ir.Ty}

theorem next_reg {r : Register} (h : st.next isFixed ty = (.reg r, st')) :
    isFixed = true ∧ st'.stack = st.stack ∧
      (ty.isFloat = true ∧ st.floats = r :: st'.floats ∧ st'.ints = st.ints ∨
        ty.isFloat = false ∧ st.ints = r :: st'.ints ∧ st'.floats = st.floats) := by
  rw [next] at h
  split at h
  · cases h
  · next hfixed =>
    refine ⟨by simpa using hfixed, ?_⟩
    split at h
    · next hfloat =>
      split at h
      · cases h
      · next hfloats =>
        cases h
        exact ⟨rfl, .inl ⟨hfloat, hfloats, rfl⟩⟩
    · next hint =>
      split at h
      · cases h
      · next hints =>
        cases h
        exact ⟨rfl, .inr ⟨by simpa using hint, hints, rfl⟩⟩

theorem next_stack {offset size : Nat} (h : st.next isFixed ty = (.stack offset size, st')) :
    offset = st.stack ∧ size = ty.stackSize ∧ st' = { st with stack := offset + size } := by
  rcases next_cases st isFixed ty with hn | ⟨r, floats, -, hn⟩ | ⟨r, ints, -, hn⟩
  · cases hn.symm.trans h
    exact ⟨rfl, rfl, rfl⟩
  · cases hn.symm.trans h
  · cases hn.symm.trans h

/-- An argument takes what it needs from the front. -/
theorem next_rest {loc : ArgLoc} (h : st.next isFixed ty = (loc, st')) :
    st'.stack = st.stack + loc.stackBytes ∧ st'.ints <:+ st.ints ∧ st'.floats <:+ st.floats := by
  cases loc with
  | reg r =>
    obtain ⟨-, hstack, ⟨-, hr, hkept⟩ | ⟨-, hr, hkept⟩⟩ := next_reg h
    · rw [hkept, hr]
      exact ⟨hstack, List.suffix_rfl, List.suffix_cons _ _⟩
    · rw [hkept, hr]
      exact ⟨hstack, List.suffix_cons _ _, List.suffix_rfl⟩
  | stack offset size =>
    obtain ⟨rfl, -, rfl⟩ := next_stack h
    exact ⟨rfl, List.suffix_rfl, List.suffix_rfl⟩

end Next

variable {st : ArgState} {fixed : Nat} {types : List Ir.Ty}

/-- What is behind the first argument is placed with what that one leaves. -/
theorem place_cons (st : ArgState) (fixed : Nat) (ty : Ir.Ty) (types : List Ir.Ty) :
    ∃ loc st', st.next (0 < fixed) ty = (loc, st') ∧
      st.place fixed (ty :: types) =
        ⟨loc :: (st'.place (fixed - 1) types).locs, (st'.place (fixed - 1) types).stackSize⟩ :=
  ⟨_, _, rfl, rfl⟩

theorem length_place_locs (st : ArgState) (fixed : Nat) (types : List Ir.Ty) :
    (st.place fixed types).locs.length = types.length := by
  induction types generalizing st fixed with
  | nil => rfl
  | cons ty types ih => simp only [place, List.length_cons, ih]

/-- An argument takes at most eight bytes. -/
theorem stackSize_le (st : ArgState) (fixed : Nat) (types : List Ir.Ty) :
    (st.place fixed types).stackSize ≤ st.stack + 8 * types.length := by
  induction types generalizing st fixed with
  | nil => exact Nat.le_refl _
  | cons ty types ih =>
    obtain ⟨loc, st', hnext, hplace⟩ := place_cons st fixed ty types
    have hle := ih st' (fixed - 1)
    have hstack : st'.stack ≤ st.stack + 8 := by
      rw [(next_rest hnext).1]
      cases loc with
      | reg r => exact Nat.le_add_right _ _
      | stack offset size =>
        obtain ⟨-, rfl, -⟩ := next_stack hnext
        have hsize : ∀ ty : Ir.Ty, ty.stackSize ≤ 8 := by
          intro ty
          cases ty <;> decide
        exact Nat.add_le_add_left (hsize ty) _
    rw [hplace, List.length_cons]
    dsimp only
    omega

/-- The stack takes arguments by whole words. -/
theorem dvd_stackSize (h : wordSize ∣ st.stack) : wordSize ∣ (st.place fixed types).stackSize := by
  induction types generalizing st fixed with
  | nil => exact h
  | cons ty types ih =>
    obtain ⟨loc, st', hnext, hplace⟩ := place_cons st fixed ty types
    rw [hplace]
    refine ih ?_
    rw [(next_rest hnext).1]
    refine Nat.dvd_add h ?_
    cases loc with
    | reg r => exact Nat.dvd_zero _
    | stack offset size =>
      obtain ⟨-, rfl, -⟩ := next_stack hnext
      have hword : ∀ ty : Ir.Ty, wordSize ∣ ty.stackSize := by
        intro ty
        cases ty <;> decide
      exact hword ty

/-- Only fixed arguments go to registers, each to one of its bank. -/
theorem place_reg {i : Nat} {r : Register} (h : (st.place fixed types).locs[i]? = some (.reg r)) :
    i < fixed ∧ ∀ ty, types[i]? = some ty → r ∈ st.bank ty := by
  induction types generalizing st fixed i with
  | nil => cases h
  | cons ty types ih =>
    obtain ⟨loc, st', hnext, hplace⟩ := place_cons st fixed ty types
    rw [hplace] at h
    cases i with
    | zero =>
      cases h
      obtain ⟨hfixed, -, hbank⟩ := next_reg hnext
      refine ⟨by simpa using hfixed, fun ty' hty => ?_⟩
      cases hty
      rw [bank]
      rcases hbank with ⟨hfloat, hr, -⟩ | ⟨hint, hr, -⟩
      · rw [if_pos hfloat, hr]
        exact List.mem_cons_self
      · rw [hint, hr]
        exact List.mem_cons_self
    | succ i =>
      obtain ⟨hlt, hbank⟩ := ih h
      obtain ⟨-, hints, hfloats⟩ := next_rest hnext
      refine ⟨by omega, fun ty' hty => ?_⟩
      have hsub : st'.bank ty' ⊆ st.bank ty' := by
        rw [bank, bank]
        split
        · exact hfloats.subset
        · exact hints.subset
      exact hsub (hbank ty' hty)

theorem mem_place_locs {r : Register} (h : .reg r ∈ (st.place fixed types).locs) :
    r ∈ st.ints ∨ r ∈ st.floats := by
  obtain ⟨i, hi⟩ := List.mem_iff_getElem?.mp h
  have hlt : i < types.length := by
    rw [← length_place_locs st fixed types]
    exact (List.getElem?_eq_some_iff.mp hi).1
  have hr := (place_reg hi).2 types[i] (List.getElem?_eq_getElem hlt)
  rw [bank] at hr
  split at hr
  · exact .inr hr
  · exact .inl hr

/-- No register is given twice. -/
theorem place_distinct (hfresh : (st.ints ++ st.floats).Nodup) :
    (st.place fixed types).locs.Pairwise fun a b => ∀ r, a = .reg r → b ≠ .reg r := by
  induction types generalizing st fixed with
  | nil => exact .nil
  | cons ty types ih =>
    obtain ⟨loc, st', hnext, hplace⟩ := place_cons st fixed ty types
    obtain ⟨-, hints, hfloats⟩ := next_rest hnext
    rw [hplace, List.pairwise_cons]
    refine ⟨?_, ih (hfresh.sublist (hints.sublist.append hfloats.sublist))⟩
    rintro b hb r rfl rfl
    have hleft : r ∉ st'.ints ++ st'.floats := by
      obtain ⟨-, -, ⟨-, hr, hkept⟩ | ⟨-, hr, hkept⟩⟩ := next_reg hnext
      · rw [hr, ← hkept, List.nodup_middle] at hfresh
        exact (List.nodup_cons.mp hfresh).1
      · rw [hr, ← hkept] at hfresh
        exact (List.nodup_cons.mp hfresh).1
    exact hleft (List.mem_append.mpr (mem_place_locs hb))

/-- A slot has the size of its type and begins where those before it end. -/
theorem place_slot {i offset size : Nat} (h : (st.place fixed types).locs[i]? = some (.stack offset size)) :
    offset = st.stack + ArgLoc.totalBytes ((st.place fixed types).locs.take i) ∧
      ∀ ty, types[i]? = some ty → size = ty.stackSize := by
  induction types generalizing st fixed i with
  | nil => cases h
  | cons ty types ih =>
    obtain ⟨loc, st', hnext, hplace⟩ := place_cons st fixed ty types
    rw [hplace] at h ⊢
    cases i with
    | zero =>
      cases h
      obtain ⟨rfl, rfl, -⟩ := next_stack hnext
      exact ⟨rfl, fun ty' hty => by cases hty; rfl⟩
    | succ i =>
      obtain ⟨hoffset, hsize⟩ := ih h
      refine ⟨?_, hsize⟩
      rw [hoffset, (next_rest hnext).1, List.take_succ_cons, ArgLoc.totalBytes, Nat.add_assoc]

/-- Slots lie behind what was taken before. -/
theorem stack_le_of_mem_place {offset size : Nat} (h : .stack offset size ∈ (st.place fixed types).locs) :
    st.stack ≤ offset := by
  obtain ⟨i, hi⟩ := List.mem_iff_getElem?.mp h
  rw [(place_slot hi).1]
  exact Nat.le_add_right _ _

/-- No slot begins before an earlier one ends. -/
theorem place_apart : (st.place fixed types).locs.Pairwise fun a b =>
    ∀ offset size offset' size', a = .stack offset size → b = .stack offset' size' → offset + size ≤ offset' := by
  induction types generalizing st fixed with
  | nil => exact .nil
  | cons ty types ih =>
    obtain ⟨loc, st', hnext, hplace⟩ := place_cons st fixed ty types
    rw [hplace, List.pairwise_cons]
    refine ⟨?_, ih⟩
    rintro b hb offset size offset' size' rfl rfl
    obtain ⟨-, -, rfl⟩ := next_stack hnext
    exact stack_le_of_mem_place hb

theorem stack_le_stackSize (st : ArgState) (fixed : Nat) (types : List Ir.Ty) :
    st.stack ≤ (st.place fixed types).stackSize := by
  induction types generalizing st fixed with
  | nil => exact Nat.le_refl _
  | cons ty types ih =>
    obtain ⟨loc, st', hnext, hplace⟩ := place_cons st fixed ty types
    rw [hplace]
    exact Nat.le_trans (by rw [(next_rest hnext).1]; exact Nat.le_add_right _ _) (ih st' (fixed - 1))

/-- Every byte of the argument area belongs to a slot, and no other byte does. -/
theorem place_covers {b : Nat} (hb : st.stack ≤ b) :
    b < (st.place fixed types).stackSize ↔ ∃ (i : Nat) (offset size : Nat),
      (st.place fixed types).locs[i]? = some (.stack offset size) ∧ offset ≤ b ∧ b < offset + size := by
  induction types generalizing st fixed with
  | nil => simpa [place] using hb
  | cons ty types ih =>
    obtain ⟨loc, st', hnext, hplace⟩ := place_cons st fixed ty types
    obtain ⟨hstack, -⟩ := next_rest hnext
    rw [hplace]
    by_cases hin : b < st'.stack
    · -- only a slot moves the end of what is taken past the byte
      cases loc with
      | reg r =>
        rw [ArgLoc.stackBytes] at hstack
        omega
      | stack offset size =>
        obtain ⟨rfl, -, rfl⟩ := next_stack hnext
        exact ⟨fun _ => ⟨0, _, _, rfl, hb, hin⟩, fun _ => Nat.lt_of_lt_of_le hin (stack_le_stackSize _ _ _)⟩
    · rw [ih (Nat.le_of_not_lt hin)]
      constructor
      · rintro ⟨i, hi⟩
        exact ⟨i + 1, hi⟩
      · rintro ⟨i, offset, size, hi, hle, hlt⟩
        cases i with
        | zero =>
          cases hi
          obtain ⟨-, -, rfl⟩ := next_stack hnext
          exact absurd hlt hin
        | succ i => exact ⟨i, offset, size, hi, hle, hlt⟩

/-- The fixed arguments are placed as if there were no others. -/
theorem place_take (st : ArgState) (fixed : Nat) (types : List Ir.Ty) :
    (st.place fixed (types.take fixed)).locs = (st.place fixed types).locs.take fixed := by
  induction types generalizing st fixed with
  | nil => simp [place]
  | cons ty types ih =>
    cases fixed with
    | zero => rfl
    | succ fixed =>
      rw [List.take_succ_cons]
      exact congrArg _ (ih _ fixed)

/-- The first variadic argument follows the last fixed one on the stack. -/
theorem place_variadic {loc : ArgLoc} (h : (st.place fixed types).locs[fixed]? = some loc) :
    ∃ size, loc = .stack (st.place fixed (types.take fixed)).stackSize size := by
  induction types generalizing st fixed with
  | nil => cases h
  | cons ty types ih =>
    cases fixed with
    | zero =>
      cases h
      exact ⟨_, rfl⟩
    | succ fixed => exact ih h

end ArgState

structure ArgPlan.Fills (plan : ArgPlan) (types : List Ir.Ty) (fixed : Nat) : Prop where
  length : plan.locs.length = types.length
  /-- Only fixed arguments are in registers, floats in those for floats. -/
  fixed : ∀ (i : Nat) r, plan.locs[i]? = some (.reg r) → i < fixed
  bank : ∀ (i : Nat) r ty, plan.locs[i]? = some (.reg r) → types[i]? = some ty →
    r ∈ if ty.isFloat then floatArgRegs else intArgRegs
  distinct : ∀ (i j : Nat) r, plan.locs[i]? = some (.reg r) → plan.locs[j]? = some (.reg r) → i = j
  size : ∀ (i : Nat) offset size ty, plan.locs[i]? = some (.stack offset size) → types[i]? = some ty →
    size = ty.stackSize
  /-- A slot begins where those before it end. -/
  contiguous : ∀ (i : Nat) offset size, plan.locs[i]? = some (.stack offset size) →
    offset = ArgLoc.totalBytes (plan.locs.take i)
  apart : ∀ (i j : Nat) offset size offset' size', i < j → plan.locs[i]? = some (.stack offset size) →
    plan.locs[j]? = some (.stack offset' size') → offset + size ≤ offset'
  covers : ∀ b, b < plan.stackSize ↔ ∃ (i : Nat) (offset size : Nat),
    plan.locs[i]? = some (.stack offset size) ∧ offset ≤ b ∧ b < offset + size

structure ArgPlan.Begins (own plan : ArgPlan) (fixed : Nat) : Prop where
  locs : own.locs = plan.locs.take fixed
  variadic : ∀ loc, plan.locs[fixed]? = some loc → ∃ size, loc = .stack own.stackSize size

private theorem pairwise_at {α : Type} {R : α → α → Prop} {l : List α} (h : l.Pairwise R) {i j : Nat} {a b : α}
    (hij : i < j) (hi : l[i]? = some a) (hj : l[j]? = some b) : R a b := by
  obtain ⟨hi', rfl⟩ := List.getElem?_eq_some_iff.mp hi
  obtain ⟨hj', rfl⟩ := List.getElem?_eq_some_iff.mp hj
  exact List.pairwise_iff_getElem.mp h i j hi' hj' hij

theorem assignArguments_fills (types : List Ir.Ty) (fixed : Nat) : (assignArguments types fixed).Fills types fixed where
  length := ArgState.length_place_locs _ _ _
  fixed i r h := (ArgState.place_reg h).1
  bank i r ty h hty := (ArgState.place_reg h).2 ty hty
  distinct i j r hi hj := by
    have hfresh : (({} : ArgState).ints ++ ({} : ArgState).floats).Nodup := by decide
    have hpair : (assignArguments types fixed).locs.Pairwise _ := ArgState.place_distinct hfresh
    rcases Nat.lt_trichotomy i j with hij | rfl | hij
    · exact absurd rfl (pairwise_at hpair hij hi hj r rfl)
    · rfl
    · exact absurd rfl (pairwise_at hpair hij hj hi r rfl)
  size i offset size ty h hty := (ArgState.place_slot h).2 ty hty
  contiguous i offset size h := (ArgState.place_slot h).1.trans (Nat.zero_add _)
  apart i j offset size offset' size' hij hi hj :=
    pairwise_at ArgState.place_apart hij hi hj offset size offset' size' rfl rfl
  covers b := ArgState.place_covers (Nat.zero_le b)

/-- Every place is that of an argument. -/
theorem ArgPlan.Fills.exists_type {plan : ArgPlan} {types : List Ir.Ty} {fixed i : Nat} {loc : ArgLoc}
    (h : plan.Fills types fixed) (hi : plan.locs[i]? = some loc) : ∃ ty, types[i]? = some ty := by
  have hlt := (List.getElem?_eq_some_iff.mp hi).1
  rw [h.length] at hlt
  exact ⟨_, List.getElem?_eq_getElem hlt⟩

theorem assignArguments_begins (types : List Ir.Ty) (fixed : Nat) :
    (assignArguments (types.take fixed) fixed).Begins (assignArguments types fixed) fixed :=
  ⟨ArgState.place_take _ _ _, fun _ => ArgState.place_variadic⟩

/-- Arguments are planned as long as those on the stack can be counted. -/
theorem planArguments_eq_ok {types : List Ir.Ty} {fixed : Nat} {plan : ArgPlan} :
    planArguments types fixed = .ok plan ↔
      plan = assignArguments types fixed ∧ (assignArguments types fixed).stackSize < 4294967296 := by
  rw [planArguments]
  constructor
  · intro h
    obtain ⟨size, hsize, h⟩ := bind_eq_ok.mp h
    exact ⟨(Except.ok.inj h).symm, lt_of_unsigned32 hsize⟩
  · rintro ⟨rfl, h⟩
    rw [unsigned32_of_lt h]
    rfl

end DirectPage
