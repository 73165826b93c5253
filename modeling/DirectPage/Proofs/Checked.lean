import DirectPage.Error

/-! Computations that succeed, taken apart. -/
namespace DirectPage

variable {α β : Type} {b : β} {step : β → α → Checked β} {xs : List α}

@[simp] theorem ok_bind (a : α) (f : α → Checked β) : (Except.ok a >>= f) = f a := rfl

@[simp] theorem error_bind (e : Failure) (f : α → Checked β) :
    ((Except.error e : Checked α) >>= f) = .error e := rfl

theorem bind_eq_ok {x : Checked α} {f : α → Checked β} : (x >>= f) = .ok b ↔ ∃ a, x = .ok a ∧ f a = .ok b := by
  cases x <;> simp

@[simp] theorem orFail_eq_ok {e : Error} {o : Option α} {a : α} : orFail e o = .ok a ↔ o = some a := by
  cases o <;> simp [orFail, fail]

theorem of_ite_ok {p : Prop} [Decidable p] {a b : α} {e : Failure}
    (h : (if p then .ok a else .error e : Checked α) = .ok b) : p ∧ a = b := by
  split at h
  · next hp => exact ⟨hp, Except.ok.inj h⟩
  · cases h

theorem unsigned32_eq_ok {n k : Nat} (h : unsigned32 n = .ok k) : k = n := (of_ite_ok h).2.symm

theorem unsigned32_of_lt {n : Nat} (h : n < 4294967296) : unsigned32 n = .ok n := if_pos h

theorem lt_of_unsigned32 {n k : Nat} (h : unsigned32 n = .ok k) : n < 4294967296 := (of_ite_ok h).1

theorem foldlM_keeps (P : β → Prop) (hs : ∀ b a c, P b → step b a = .ok c → P c) {c : β} (hb : P b)
    (h : xs.foldlM step b = .ok c) : P c := by
  induction xs generalizing b with
  | nil =>
    cases h
    exact hb
  | cons x xs ih =>
    rw [List.foldlM_cons, bind_eq_ok] at h
    obtain ⟨d, hd, hr⟩ := h
    exact ih (hs b x d hb hd) hr

theorem foldlM_total (P : β → Prop) (hs : ∀ x ∈ xs, ∀ b, P b → ∃ c, step b x = .ok c ∧ P c) (hb : P b) :
    ∃ c, xs.foldlM step b = .ok c ∧ P c := by
  induction xs generalizing b with
  | nil => exact ⟨b, rfl, hb⟩
  | cons x xs ih =>
    obtain ⟨d, hd, hpd⟩ := hs x List.mem_cons_self b hb
    obtain ⟨c, hc, hpc⟩ := ih (fun y hy => hs y (List.mem_cons_of_mem _ hy)) hpd
    exact ⟨c, by rw [List.foldlM_cons, hd, ok_bind, hc], hpc⟩

/-- A fold fails at an element that the elements before it lead to. -/
theorem foldlM_eq_error {e : Failure} (h : xs.foldlM step b = .error e) :
    ∃ (past : List α) (x : α) (rest : List α) (mid : β),
      xs = past ++ x :: rest ∧ past.foldlM step b = .ok mid ∧ step mid x = .error e := by
  induction xs generalizing b with
  | nil => cases h
  | cons x xs ih =>
    rw [List.foldlM_cons] at h
    cases hx : step b x with
    | error d =>
      rw [hx] at h
      cases h
      exact ⟨[], x, xs, b, rfl, rfl, hx⟩
    | ok c =>
      rw [hx] at h
      obtain ⟨past, y, rest, mid, rfl, hpast, hy⟩ := ih h
      exact ⟨x :: past, y, rest, mid, rfl, by rw [List.foldlM_cons, hx]; exact hpast, hy⟩

end DirectPage
