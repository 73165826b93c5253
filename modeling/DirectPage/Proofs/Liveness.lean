import DirectPage.Allocation.Liveness

/-! Liveness at the borders of blocks solves its own equations.

The rounds only add blocks, so they end in a set that one more round leaves as it is. -/
namespace DirectPage.Allocation

def Below (live live' : List Bool) : Prop := ∀ b, holds live b = true → holds live' b = true

variable {live live' : List Bool} {P : Nat → Prop} {b : Nat} {f : Routine} {block : List Pseudo}

private theorem below_tail {x y : Bool} (h : Below (x :: live) (y :: live')) : Below live live' := fun b hb => by
  simpa [holds] using h (b + 1) (by simpa [holds] using hb)

private theorem count_of_below (h : Below live live') : live.count true ≤ live'.count true := by
  induction live generalizing live' with
  | nil => simp
  | cons x live ih =>
    cases live' with
    | nil =>
      have hn : ∀ y ∈ x :: live, y = false := by
        intro y hy
        obtain ⟨b, hb⟩ := List.mem_iff_getElem?.mp hy
        cases y with
        | false => rfl
        | true => simpa [holds] using h b (by simp [holds, hb])
      have : (x :: live).count true = 0 := List.count_eq_zero.mpr fun ht => by simpa using hn _ ht
      omega
    | cons y live' =>
      have ht := ih (below_tail h)
      have hx : x = true → y = true := by simpa [holds] using h 0
      cases x <;> cases y <;> simp_all
      omega

/-- A larger set with no more members is the same set. -/
private theorem below_of_count (h : Below live live') (hc : live'.count true ≤ live.count true) :
    Below live' live := by
  induction live' generalizing live with
  | nil => intro b hb; simp [holds] at hb
  | cons y live' ih =>
    cases live with
    | nil =>
      intro b hb
      have hn : true ∉ y :: live' := List.count_eq_zero.mp (by simpa using hc)
      refine absurd (List.mem_of_getElem? (i := b) ?_) hn
      simpa [holds, List.getD_eq_getElem?_getD, Option.getD_eq_iff] using hb
    | cons x live =>
      have ht := count_of_below (below_tail h)
      have hx : x = true → y = true := by simpa [holds] using h 0
      have hxy : x = y := by
        cases x <;> cases y <;> simp_all
        omega
      subst hxy
      have hr := ih (below_tail h) (by cases x <;> simp_all)
      intro b hb
      cases b with
      | zero => simpa [holds] using hb
      | succ b => simpa [holds] using hr b (by simpa [holds] using hb)

theorem BlockFacts.liveIn_mono {facts : BlockFacts} (h : Below live live') (hl : facts.liveIn live = true) :
    facts.liveIn live' = true := by
  simp only [BlockFacts.liveIn, Bool.or_eq_true, Bool.and_eq_true, List.any_eq_true] at hl ⊢
  rcases hl with he | ⟨hk, s, hs, hl⟩
  · exact .inl he
  · exact .inr ⟨hk, s, hs, h s hl⟩

theorem holds_advance (facts : List BlockFacts) (live : List Bool) (b : Nat) :
    holds (advance facts live) b = (facts[b]?.map (·.liveIn live)).getD false := by
  simp [holds, advance]

private theorem advance_mono (facts : List BlockFacts) (h : Below live live') :
    Below (advance facts live) (advance facts live') := by
  intro b hb
  rw [holds_advance] at hb ⊢
  cases hf : facts[b]? with
  | none => simp [hf] at hb
  | some fact =>
    simp only [hf, Option.map_some, Option.getD_some] at hb ⊢
    exact BlockFacts.liveIn_mono h hb

/-- The set that the rounds end in is stable. -/
theorem holds_stabilize (facts : List BlockFacts) (live : List Bool)
    (h : Below live (advance facts live)) (b : Nat) :
    holds (stabilize facts live) b = holds (advance facts (stabilize facts live)) b := by
  fun_induction stabilize facts live with
  | case1 live hc ih => exact ih (advance_mono facts h)
  | case2 live hc =>
    have hb := below_of_count h (by omega)
    have hup := advance_mono facts h b
    have hdown := advance_mono facts hb b
    cases hx : holds (advance facts live) b <;> cases hy : holds (advance facts (advance facts live)) b <;> simp_all

/-- Whatever set of blocks is closed under the facts contains the set that the rounds end in. -/
theorem stabilize_least {facts : List BlockFacts} (hP : ∀ b fact, facts[b]? = some fact →
      (fact.exposed = true ∨ fact.killed = false ∧ ∃ s ∈ fact.succs, P s) → P b)
    (h : ∀ b, holds live b = true → P b) (hb : holds (stabilize facts live) b = true) : P b := by
  have hstep : ∀ live : List Bool, (∀ b, holds live b = true → P b) →
      ∀ b, holds (advance facts live) b = true → P b := by
    intro live hl b hb
    rw [holds_advance] at hb
    cases hf : facts[b]? with
    | none => simp [hf] at hb
    | some fact =>
      simp only [hf, Option.map_some, Option.getD_some, BlockFacts.liveIn, Bool.or_eq_true,
        Bool.and_eq_true, Bool.not_eq_true', List.any_eq_true] at hb
      exact hP b fact hf (hb.imp id fun ⟨hk, s, hs, hl'⟩ => ⟨hk, s, hs, hl s hl'⟩)
  fun_induction stabilize facts live with
  | case1 live _ ih => exact ih (hstep live h) hb
  | case2 live _ => exact hstep live h b hb

theorem withSuccessors_getElem? (f : Routine) (b : Nat) :
    (withSuccessors f)[b]? = f.blocks[b]?.map fun block => (block, f.successors b) := by
  simp [withSuccessors, List.getElem?_mapIdx]

/-- The equation of liveness at the start of a block. -/
theorem holds_liveIn (h : f.blocks[b]? = some block) (r : Reg) : holds (liveIn f r) b =
      (exposes r block || (!kills r block && (f.successors b).any (holds (liveIn f r)))) := by
  rw [liveIn, holds_stabilize _ _ fun b hb => by simp [holds] at hb, holds_advance]
  simp [factsOf, withSuccessors_getElem?, h, BlockFacts.liveIn]

/-- A register that is live at the start of a block is in every set of blocks that solves the
equation in the direction of control. -/
theorem liveIn_least {r : Reg} (hP : ∀ b block, f.blocks[b]? = some block →
      (exposes r block = true ∨ kills r block = false ∧ ∃ s ∈ f.successors b, P s) → P b)
    (h : holds (liveIn f r) b = true) : P b := by
  refine stabilize_least (fun b fact hf hc => ?_) (fun b hb => by simp [holds] at hb) h
  simp only [factsOf, List.getElem?_map, withSuccessors_getElem?, Option.map_map,
    Option.map_eq_some_iff] at hf
  obtain ⟨block, hb, rfl⟩ := hf
  exact hP b block hb hc

/-- A register that is live anywhere is read somewhere. -/
theorem exposed_of_liveIn {r : Reg} (h : holds (liveIn f r) b = true) :
    ∃ (c : Nat) (block : List Pseudo), f.blocks[c]? = some block ∧ exposes r block = true :=
  liveIn_least (P := fun _ => ∃ (c : Nat) (block : List Pseudo), f.blocks[c]? = some block ∧
    exposes r block = true) (fun b block hb hc => hc.elim (fun he => ⟨b, block, hb, he⟩)
      fun ⟨_, _, _, hp⟩ => hp) h

theorem holds_liveOut (h : f.blocks[b]? = some block) (r : Reg) :
    holds (liveOut f r) b = (f.successors b).any (holds (liveIn f r)) := by
  simp [holds, liveOut, withSuccessors_getElem?, h]

end DirectPage.Allocation
