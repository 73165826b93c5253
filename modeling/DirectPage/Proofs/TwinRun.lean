import Mathlib.Data.List.Forall2
import DirectPage.Proofs.Interpretation
import DirectPage.Proofs.SelectionRun
import DirectPage.Proofs.Selects

/-! Two selections side by side. The second goes the way of the first, and their operations leave the same contents in
registers that correspond to each other, whatever the operations mean. -/
namespace DirectPage.Selection

/-- Selection went on: values keep their registers, and registers of other values are new. -/
structure Grows (cx cx' : Context) : Prop where
  values : ∀ v r, cx.values.lookup v = some r → cx'.values.lookup v = some r
  vregs : cx.routine.numVRegs ≤ cx'.routine.numVRegs
  new : ∀ v r, cx'.values.lookup v = some r →
    cx.values.lookup v = some r ∨ ∃ k, r = .virt k ∧ cx.routine.numVRegs ≤ k

theorem Grows.refl (cx : Context) : Grows cx cx := ⟨fun _ _ => id, Nat.le_refl _, fun _ _ => .inl⟩

theorem Grows.trans {cx cx' cx'' : Context} (h : Grows cx cx') (h' : Grows cx' cx'') : Grows cx cx'' where
  values v r hv := h'.values v r (h.values v r hv)
  vregs := Nat.le_trans h.vregs h'.vregs
  new v r hv := by
    rcases h'.new v r hv with hv | ⟨k, rfl, hk⟩
    · exact h.new v r hv
    · exact .inr ⟨k, rfl, Nat.le_trans h.vregs hk⟩

structure Sync (c d : Context) : Prop where
  left : Valid c
  right : Valid d
  plan : c.plan = d.plan
  pool : c.routine.pool = d.routine.pool

/-- Two selections: the contexts that they end in, and the values that the second has for the results of the first. -/
structure Twins (V S : Type) where
  meaning : Meaning V S
  left : Context
  right : Context
  left_valid : Valid left
  right_valid : Valid right
  rename : Ir.Value → Ir.Value

structure Ledger where
  /-- Operands that have their contents still. -/
  operands : List Ir.Value
  /-- Results that are written. -/
  results : List Ir.Value := []
  /-- Values that have registers, each with what corresponds to it. -/
  named : List (Ir.Value × Ir.Value × Reg × Reg) := []
  /-- Registers of no value. -/
  temps : List (Reg × Reg) := []
  /-- Those of them with the same contents. -/
  held : List (Reg × Reg) := []

namespace Ledger

def name (L : Ledger) (u v : Ir.Value) (r s : Reg) : Ledger := { L with named := (u, v, r, s) :: L.named }

def reserve (L : Ledger) (r s : Reg) : Ledger := { L with temps := (r, s) :: L.temps }

def hold (L : Ledger) (r s : Reg) : Ledger := { L with held := (r, s) :: L.held }

def write (L : Ledger) (v : Ir.Value) : Ledger :=
  { L with operands := L.operands.filter (· ≠ v), results := v :: L.results }

def keep (L : Ledger) (v : Ir.Value) : Ledger := { L with results := v :: L.results }

structure Extends (L L' : Ledger) : Prop where
  operands : L'.operands = L.operands
  results : L'.results = L.results
  named : L.named ⊆ L'.named
  temps : L.temps ⊆ L'.temps
  held : L.held ⊆ L'.held

inductive Readable (L : Ledger) : Reg → Reg → Prop
  | phys (p : Register) : Readable L (.phys p) (.phys p)
  | held {r s : Reg} (h : (r, s) ∈ L.held) : Readable L r s
  | operand {v : Ir.Value} {r s : Reg} (hv : v ∈ L.operands) (h : (v, v, r, s) ∈ L.named) : Readable L r s

structure Alike (L : Ledger) (m n : Pseudo) : Prop where
  shape : m.shape = n.shape
  uses : List.Forall₂ L.Readable m.uses n.uses

variable {L L' L'' : Ledger} {r s : Reg} {u v : Ir.Value}

theorem Extends.refl (L : Ledger) : L.Extends L := ⟨rfl, rfl, fun _ => id, fun _ => id, fun _ => id⟩

theorem Extends.trans (h : L.Extends L') (h' : L'.Extends L'') : L.Extends L'' where
  operands := h'.operands.trans h.operands
  results := h'.results.trans h.results
  named := fun _ hx => h'.named (h.named hx)
  temps := fun _ hx => h'.temps (h.temps hx)
  held := fun _ hx => h'.held (h.held hx)

theorem extends_name : L.Extends (L.name u v r s) := ⟨rfl, rfl, List.subset_cons_self .., fun _ => id, fun _ => id⟩

theorem extends_reserve : L.Extends (L.reserve r s) := ⟨rfl, rfl, fun _ => id, List.subset_cons_self .., fun _ => id⟩

theorem extends_hold : L.Extends (L.hold r s) := ⟨rfl, rfl, fun _ => id, fun _ => id, List.subset_cons_self ..⟩

theorem Readable.mono (h : L.Readable r s) (hW : L.Extends L') : L'.Readable r s := by
  cases h with
  | phys p => exact .phys p
  | held h => exact .held (hW.held h)
  | operand hv h => exact .operand (hW.operands ▸ hv) (hW.named h)

end Ledger

def IsTemp (last cx : Context) (r : Reg) : Prop :=
  ∃ k, r = .virt k ∧ k < cx.routine.numVRegs ∧ ∀ v, last.values.lookup v ≠ some r

structure Knows {V S : Type} (E : Twins V S) (L : Ledger) (c : Context) (σ : Cells V S) (d : Context)
    (τ : Cells V S) : Prop where
  rest : σ.rest = τ.rest
  phys : ∀ p, σ.regs (.phys p) = τ.regs (.phys p)
  operands : ∀ v ∈ L.operands, ∀ r s, E.left.values.lookup v = some r → E.right.values.lookup v = some s →
    σ.regs r = τ.regs s
  results : ∀ v ∈ L.results, ∃ r s, E.left.values.lookup v = some r ∧
    E.right.values.lookup (E.rename v) = some s ∧ σ.regs r = τ.regs s
  named : ∀ u v r s, (u, v, r, s) ∈ L.named → E.left.values.lookup u = some r ∧ E.right.values.lookup v = some s
  temps : ∀ r s, (r, s) ∈ L.temps → IsTemp E.left c r ∧ IsTemp E.right d s
  paired : ∀ r s r' s', (r, s) ∈ L.temps → (r', s') ∈ L.temps → (r = r' ↔ s = s')
  held : ∀ r s, (r, s) ∈ L.held → (r, s) ∈ L.temps ∧ σ.regs r = τ.regs s

section Knows

variable {V S : Type} {E : Twins V S} {L : Ledger} {c c' d d' : Context} {σ τ : Cells V S} {m n : Pseudo} {r s : Reg}

variable {last : Context} {v : Ir.Value}

theorem IsTemp.grow (h : IsTemp last c r) (hg : Grows c c') : IsTemp last c' r := by
  obtain ⟨k, hr, hk, hlast⟩ := h
  exact ⟨k, hr, Nat.lt_of_lt_of_le hk hg.vregs, hlast⟩

theorem Knows.grow (h : Knows E L c σ d τ) (hc : Grows c c') (hd : Grows d d') : Knows E L c' σ d' τ :=
  { h with temps := fun r s hrs => ⟨(h.temps r s hrs).1.grow hc, (h.temps r s hrs).2.grow hd⟩ }

theorem Knows.readable (h : Knows E L c σ d τ) (hrs : L.Readable r s) : σ.regs r = τ.regs s := by
  cases hrs with
  | phys p => exact h.phys p
  | held hrs => exact (h.held r s hrs).2
  | @operand v _ _ hv hn =>
    obtain ⟨hr, hs⟩ := h.named v v r s hn
    exact h.operands v hv r s hr hs

/-- Operations that are alike write the same contents. -/
theorem Knows.run_eq (h : Knows E L c σ d τ) (hmn : L.Alike m n) :
    E.meaning.run m.shape (m.uses.map σ.regs) σ.rest = E.meaning.run n.shape (n.uses.map τ.regs) τ.rest := by
  refine E.meaning.run_congr hmn.shape ?_ h.rest
  have huses := hmn.uses
  generalize m.uses = rs at huses
  generalize n.uses = ss at huses
  induction huses with
  | nil => rfl
  | cons hrs _ ih => rw [List.map_cons, List.map_cons, h.readable hrs, ih]

theorem IsTemp.ne (h : IsTemp last c r) (hv : last.values.lookup v = some s) : s ≠ r := by
  obtain ⟨k, -, -, hlast⟩ := h
  rintro rfl
  exact hlast v hv

theorem IsTemp.ne_phys (h : IsTemp last c r) (p : Register) : .phys p ≠ r := by
  obtain ⟨k, rfl, -, -⟩ := h
  exact nofun

theorem ne_phys_of_lookup (h : Valid last) (hv : last.values.lookup v = some s) (p : Register) : .phys p ≠ s := by
  obtain ⟨k, rfl, -⟩ := h.virt v s hv
  exact nofun

/-- Operations that write assigned registers only. -/
theorem Knows.act_phys (h : Knows E L c σ d τ) (hmn : L.Alike m n) (hdefs : n.defs = m.defs)
    (hphys : ∀ r ∈ m.defs, ∃ p, r = .phys p) : Knows E L c (E.meaning.act σ m) d (E.meaning.act τ n) := by
  have hvirt {k : Nat} : .virt k ∉ m.defs := fun hk => by
    obtain ⟨p, hp⟩ := hphys _ hk
    cases hp
  have hleft {v : Ir.Value} {r : Reg} (hr : E.left.values.lookup v = some r) :
      (E.meaning.act σ m).regs r = σ.regs r := by
    obtain ⟨k, rfl, -⟩ := E.left_valid.virt v r hr
    exact E.meaning.act_regs_of_notMem hvirt
  have hright {v : Ir.Value} {s : Reg} (hs : E.right.values.lookup v = some s) :
      (E.meaning.act τ n).regs s = τ.regs s := by
    obtain ⟨k, rfl, -⟩ := E.right_valid.virt v s hs
    exact E.meaning.act_regs_of_notMem (hdefs ▸ hvirt)
  refine { h with rest := congrArg Prod.snd (h.run_eq hmn), phys := fun p => ?_, operands := fun v hv r s hr hs => ?_,
                  results := fun v hv => ?_, held := fun r s hrs => ?_ }
  · simp only [Meaning.act, hdefs, h.run_eq hmn, h.phys]
  · rw [hleft hr, hright hs]
    exact h.operands v hv r s hr hs
  · obtain ⟨r, s, hr, hs, hrs⟩ := h.results v hv
    exact ⟨r, s, hr, hs, by rw [hleft hr, hright hs, hrs]⟩
  · obtain ⟨htemp, heq⟩ := h.held r s hrs
    obtain ⟨⟨k, rfl, -, -⟩, ⟨l, rfl, -, -⟩⟩ := h.temps r s htemp
    exact ⟨htemp, by rw [E.meaning.act_regs_of_notMem hvirt, E.meaning.act_regs_of_notMem (hdefs ▸ hvirt), heq]⟩

section Write

variable {a b : Reg} (h : Knows E L c σ d τ) (hmn : L.Alike m n) (hm : m.defs = [a]) (hn : n.defs = [b])
include h hmn hm hn

private theorem Knows.act_written : (E.meaning.act σ m).regs a = (E.meaning.act τ n).regs b := by
  rw [E.meaning.act_regs_of_single hm, E.meaning.act_regs_of_single hn, h.run_eq hmn]

omit h hmn hn in
private theorem act_other (hr : r ≠ a) : (E.meaning.act σ m).regs r = σ.regs r :=
  E.meaning.act_regs_of_notMem (by simpa [hm] using hr)

/-- An operation that fills registers of no value. -/
theorem Knows.act_temp (hab : (a, b) ∈ L.temps) :
    Knows E (L.hold a b) c (E.meaning.act σ m) d (E.meaning.act τ n) := by
  obtain ⟨ha, hb⟩ := h.temps a b hab
  refine { h with rest := congrArg Prod.snd (h.run_eq hmn), phys := fun p => ?_, operands := fun v hv r s hr hs => ?_,
                  results := fun v hv => ?_, held := fun r s hrs => ?_ }
  · rw [act_other hm (ha.ne_phys p), act_other hn (hb.ne_phys p), h.phys]
  · rw [act_other hm (ha.ne hr), act_other hn (hb.ne hs)]
    exact h.operands v hv r s hr hs
  · obtain ⟨r, s, hr, hs, hrs⟩ := h.results v hv
    exact ⟨r, s, hr, hs, by rw [act_other hm (ha.ne hr), act_other hn (hb.ne hs), hrs]⟩
  · rcases List.mem_cons.mp hrs with hrs | hrs
    · cases hrs
      exact ⟨hab, h.act_written hmn hm hn⟩
    · obtain ⟨htemp, heq⟩ := h.held r s hrs
      refine ⟨htemp, ?_⟩
      have hpair := h.paired r s a b htemp hab
      by_cases hra : r = a
      · obtain rfl := hpair.mp hra
        obtain rfl := hra
        exact h.act_written hmn hm hn
      · rw [act_other hm hra, act_other hn (mt hpair.mpr hra), heq]

/-- An operation that writes a result. Operands that are other values keep their contents on both sides, since the
second selection has a value for the result that is no operand. -/
theorem Knows.act_result {v : Ir.Value} (hv : (v, E.rename v, a, b) ∈ L.named)
    (hfresh : ∀ u ∈ L.operands, u ≠ E.rename v) (hnew : ∀ u ∈ L.results, u ≠ v ∧ E.rename u ≠ E.rename v) :
    Knows E (L.write v) c (E.meaning.act σ m) d (E.meaning.act τ n) := by
  obtain ⟨ha, hb⟩ := h.named _ _ _ _ hv
  have hleft {u : Ir.Value} {r : Reg} (hr : E.left.values.lookup u = some r) (hu : u ≠ v) : r ≠ a := by
    rintro rfl
    exact hu (E.left_valid.inj u v r hr ha)
  have hright {u : Ir.Value} {s : Reg} (hs : E.right.values.lookup u = some s) (hu : u ≠ E.rename v) : s ≠ b := by
    rintro rfl
    exact hu (E.right_valid.inj u _ s hs hb)
  refine { h with rest := congrArg Prod.snd (h.run_eq hmn), phys := fun p => ?_, operands := fun u hu r s hr hs => ?_,
                  results := fun u hu => ?_, held := fun r s hrs => ?_ }
  · rw [act_other hm (ne_phys_of_lookup E.left_valid ha p), act_other hn (ne_phys_of_lookup E.right_valid hb p), h.phys]
  · obtain ⟨hu, hne⟩ := List.mem_filter.mp hu
    rw [act_other hm (hleft hr (by simpa using hne)), act_other hn (hright hs (hfresh u hu))]
    exact h.operands u hu r s hr hs
  · rcases List.mem_cons.mp hu with rfl | hu
    · exact ⟨a, b, ha, hb, h.act_written hmn hm hn⟩
    · obtain ⟨r, s, hr, hs, hrs⟩ := h.results u hu
      exact ⟨r, s, hr, hs, by rw [act_other hm (hleft hr (hnew u hu).1), act_other hn (hright hs (hnew u hu).2), hrs]⟩
  · obtain ⟨htemp, heq⟩ := h.held r s hrs
    obtain ⟨hr, hs⟩ := h.temps r s htemp
    exact ⟨htemp, by rw [act_other hm (hr.ne ha).symm, act_other hn (hs.ne hb).symm, heq]⟩

end Write

/-- A copy of an operand to itself. In the first selection it changes nothing, so that all operands are kept. -/
theorem Knows.act_self {a b : Reg} (h : Knows E L c σ d τ) (hv : (v, E.rename v, a, b) ∈ L.named)
    (ho : v ∈ L.operands) (hrs : (v, v, r, s) ∈ L.named) (hfresh : ∀ u ∈ L.operands, u ≠ E.rename v)
    (hnew : ∀ u ∈ L.results, E.rename u ≠ E.rename v) :
    Knows E (L.keep v) c (E.meaning.act σ (.copy a r)) d (E.meaning.act τ (.copy b s)) := by
  obtain ⟨ha, hb⟩ := h.named _ _ _ _ hv
  obtain ⟨hr, hs⟩ := h.named _ _ _ _ hrs
  obtain rfl : a = r := Option.some.inj (ha.symm.trans hr)
  have hsame : E.meaning.act σ (.copy a a) = σ := by
    rw [E.meaning.act_copy]
    congr 1
    funext q
    split
    · next hq => rw [hq]
    · rfl
  have hother {q : Reg} (hq : q ≠ b) : (E.meaning.act τ (.copy b s)).regs q = τ.regs q := act_other rfl hq
  have hright {u : Ir.Value} {q : Reg} (hq : E.right.values.lookup u = some q) (hu : u ≠ E.rename v) : q ≠ b := by
    rintro rfl
    exact hu (E.right_valid.inj u _ q hq hb)
  rw [hsame]
  refine { h with rest := ?_, phys := fun p => ?_, operands := fun u hu q q' hq hq' => ?_, results := fun u hu => ?_,
                  held := fun q q' hqq => ?_ }
  · rw [E.meaning.act_copy]
    exact h.rest
  · rw [hother (ne_phys_of_lookup E.right_valid hb p), h.phys]
  · rw [hother (hright hq' (hfresh u hu))]
    exact h.operands u hu q q' hq hq'
  · rcases List.mem_cons.mp hu with rfl | hu
    · refine ⟨a, b, ha, hb, ?_⟩
      rw [E.meaning.act_copy]
      simpa using h.operands u ho a s hr hs
    · obtain ⟨q, q', hq, hq', heq⟩ := h.results u hu
      exact ⟨q, q', hq, hq', by rw [hother (hright hq' (hnew u hu)), heq]⟩
  · obtain ⟨htemp, heq⟩ := h.held q q' hqq
    exact ⟨htemp, by rw [hother ((h.temps q q' htemp).2.ne hb).symm, heq]⟩

end Knows

section Steps

variable {f : Ir.Function} {c c' : Context} {v : Ir.Value} {r : Reg}

structure ReachesReg (c : Context) (v : Ir.Value) (r : Reg) (c' : Context) : Prop where
  valid : Valid c'
  grows : Grows c c'
  register : c'.values.lookup v = some r
  out : c'.out = c.out
  plan : c'.plan = c.plan
  pool : c'.routine.pool = c.routine.pool

theorem reg_reaches (hv : Valid c) (h : (reg f v).run c = .ok (r, c')) : ReachesReg c v r c' := by
  obtain ⟨_, _, hget, h⟩ := run_bind h
  cases hget
  split at h
  · next hr =>
    cases h
    exact ⟨hv, .refl c, hr, rfl, rfl, rfl⟩
  · next hnone =>
    obtain ⟨ty, -, h⟩ := run_check h
    cases h
    refine ⟨hv.assign (bankOf ty) v, ⟨fun u q hu => lookup_cons_of_none hnone hu, ?_, fun u q hu => ?_⟩,
      List.lookup_cons_self, rfl, rfl, rfl⟩
    · exact Nat.le_of_lt ((numVRegs_newVReg c.routine (bankOf ty)).symm ▸ Nat.lt_succ_self _)
    · rw [List.lookup_cons] at hu
      split at hu
      · exact .inr ⟨_, (Option.some.inj hu).symm, Nat.le_refl _⟩
      · exact .inl hu

theorem grows_emit (c : Context) (m : Pseudo) : Grows c { c with out := c.out ++ [m] } :=
  ⟨fun _ _ => id, Nat.le_refl _, fun _ _ => .inl⟩

theorem grows_newVReg (c : Context) (cls : RegClass) : Grows c { c with routine := (c.routine.newVReg cls).2 } :=
  ⟨fun _ _ => id, Nat.le_of_lt ((numVRegs_newVReg c.routine cls).symm ▸ Nat.lt_succ_self _), fun _ _ => .inl⟩

/-- A new register never becomes the register of a value. -/
theorem isTemp_newVReg {last : Context} {cls : RegClass} (hv : Valid c)
    (hlast : Grows { c with routine := (c.routine.newVReg cls).2 } last) :
    IsTemp last { c with routine := (c.routine.newVReg cls).2 } (.virt c.routine.numVRegs) := by
  have hn := numVRegs_newVReg c.routine cls
  refine ⟨_, rfl, by simp [hn], fun u hu => ?_⟩
  rcases hlast.new u _ hu with hu | ⟨k, hk, hle⟩
  · obtain ⟨k, hk, hlt⟩ := hv.virt u _ hu
    cases hk
    omega
  · cases hk
    simp only [hn] at hle
    omega

theorem numVRegs_addConstant (f : Routine) (bytes : List UInt8) : (f.addConstant bytes).2.numVRegs = f.numVRegs := by
  unfold Routine.addConstant
  split <;> rfl

/-- Where a constant is does not depend on registers. -/
theorem addConstant_congr {f f' : Routine} (bytes : List UInt8) (h : f.pool = f'.pool) :
    (f.addConstant bytes).1 = (f'.addConstant bytes).1 ∧
      (f.addConstant bytes).2.pool = (f'.addConstant bytes).2.pool := by
  unfold Routine.addConstant
  rw [h]
  split
  · exact ⟨rfl, h⟩
  · exact ⟨rfl, rfl⟩

private theorem valid_addConstant (bytes : List UInt8) (hv : Valid c) :
    Valid { c with routine := (c.routine.addConstant bytes).2 } :=
  hv.later rfl (Nat.le_of_eq (numVRegs_addConstant c.routine bytes).symm)

theorem Sync.addConstant {d : Context} (h : Sync c d) (bytes : List UInt8) :
    Sync { c with routine := (c.routine.addConstant bytes).2 } { d with routine := (d.routine.addConstant bytes).2 } :=
  ⟨valid_addConstant bytes h.left, valid_addConstant bytes h.right, h.plan, (addConstant_congr bytes h.pool).2⟩

theorem grows_addConstant (c : Context) (bytes : List UInt8) :
    Grows c { c with routine := (c.routine.addConstant bytes).2 } :=
  ⟨fun _ _ => id, (Nat.le_of_eq (numVRegs_addConstant c.routine bytes).symm), fun _ _ => .inl⟩

end Steps

/-- Two selections went on from `c` and `d`. Where they are to end in the contexts of `E`, their operations take
states of which `L` tells to states of which `L'` tells. -/
structure Paired {V S : Type} (E : Twins V S) (L : Ledger) (c d : Context) (L' : Ledger) (c' d' : Context)
    (ms ns : List Pseudo) : Prop where
  sync : Sync c' d'
  left : Grows c c'
  right : Grows d d'
  outLeft : c'.out = c.out ++ ms
  outRight : d'.out = d.out ++ ns
  knows : Grows c' E.left → Grows d' E.right → ∀ σ τ, Knows E L c σ d τ →
    Knows E L' c' (E.meaning.actAll σ ms) d' (E.meaning.actAll τ ns)

/-- The second selection succeeds where the first does, and what they come to is related. -/
structure Twin {V S α β : Type} (E : Twins V S) (L : Ledger) (Q : α → β → Ledger → Prop) (x : Select α) (y : Select β) :
    Prop where
  runs : ∀ c d a c', Sync c d → x.run c = .ok (a, c') →
    ∃ b d' L' ms ns, y.run d = .ok (b, d') ∧ Q a b L' ∧ Paired E L c d L' c' d' ms ns

section Paired

variable {V S : Type} {E : Twins V S} {L L1 L' : Ledger} {c d c1 d1 c' d' : Context} {ms ns ms' ns' : List Pseudo}

theorem Paired.refl (h : Sync c d) : Paired E L c d L c d [] [] :=
  ⟨h, .refl c, .refl d, by simp, by simp, fun _ _ _ _ => id⟩

theorem Paired.trans (h : Paired E L c d L1 c1 d1 ms ns) (h' : Paired E L1 c1 d1 L' c' d' ms' ns') :
    Paired E L c d L' c' d' (ms ++ ms') (ns ++ ns') where
  sync := h'.sync
  left := h.left.trans h'.left
  right := h.right.trans h'.right
  outLeft := by rw [h'.outLeft, h.outLeft, List.append_assoc]
  outRight := by rw [h'.outRight, h.outRight, List.append_assoc]
  knows hc hd σ τ hL := by
    rw [Meaning.actAll_append, Meaning.actAll_append]
    exact h'.knows hc hd _ _ (h.knows (h'.left.trans hc) (h'.right.trans hd) σ τ hL)

/-- Selections that go on without operations. -/
theorem Paired.silent (h : Sync c' d') (hc : Grows c c') (hd : Grows d d') (hout : c'.out = c.out)
    (hout' : d'.out = d.out) : Paired E L c d L c' d' [] [] :=
  ⟨h, hc, hd, by simp [hout], by simp [hout'], fun _ _ _ _ hL => hL.grow hc hd⟩

end Paired

namespace Twin

variable {V S α β γ δ : Type} {E : Twins V S} {L : Ledger} {Q : α → β → Ledger → Prop} {R : γ → δ → Ledger → Prop}
  {x : Select α} {y : Select β} {k : γ → Select α} {l : γ → Select β} {p : Checked γ} {v : Ir.Value} {m n : Pseudo}
  {a b : Reg}

theorem pure {a : α} {b : β} (h : Q a b L) : Twin E L Q (pure a) (pure b) where
  runs c d a' c' hcd hrun := by
    cases hrun
    exact ⟨b, d, L, [], [], rfl, h, .refl hcd⟩

theorem mono {Q' : α → β → Ledger → Prop} (h : Twin E L Q x y) (hQ : ∀ a b L', Q a b L' → Q' a b L') :
    Twin E L Q' x y where
  runs c d a c' hcd hrun := by
    obtain ⟨b, d', L', ms, ns, hy, hL, hpaired⟩ := h.runs c d a c' hcd hrun
    exact ⟨b, d', L', ms, ns, hy, hQ a b L' hL, hpaired⟩

theorem bind {k : α → Select γ} {l : β → Select δ} (h : Twin E L Q x y)
    (hk : ∀ a b L', Q a b L' → Twin E L' R (k a) (l b)) : Twin E L R (x >>= k) (y >>= l) where
  runs c d a c' hcd hrun := by
    obtain ⟨a1, c1, hx, hrun⟩ := run_bind hrun
    obtain ⟨b1, d1, L1, ms, ns, hy, hL1, hpaired⟩ := h.runs c d a1 c1 hcd hx
    obtain ⟨b, d', L', ms', ns', hl, hR, hpaired'⟩ := (hk a1 b1 L1 hL1).runs c1 d1 a c' hpaired.sync hrun
    refine ⟨b, d', L', _, _, ?_, hR, hpaired.trans hpaired'⟩
    rw [StateT.run_bind, hy]
    exact hl

theorem lift {q : Checked γ} (h : ∀ a, p = .ok a → q = .ok a) (hk : ∀ a, p = .ok a → Twin E L Q (k a) (l a)) :
    Twin E L Q (liftM p >>= k) (liftM q >>= l) where
  runs c d a c' hcd hrun := by
    obtain ⟨a1, hp, hrun⟩ := run_check hrun
    rw [lift_bind (h a1 hp)]
    exact (hk a1 hp).runs c d a c' hcd hrun

theorem check (hk : ∀ a, Twin E L Q (k a) (l a)) : Twin E L Q (liftM p >>= k) (liftM p >>= l) :=
  lift (fun _ => id) fun a _ => hk a

/-- A first selection that fails. -/
theorem fail (e : Error) : Twin E L Q (liftM (DirectPage.fail e : Checked α)) y where
  runs c d a c' hcd hrun := by cases hrun

/-- The registers of values. -/
theorem reg {f f' : Ir.Function} {u : Ir.Value} (hv : ∃ ty, f'.valueType v = .ok ty) :
    Twin E L (fun r s L' => L' = L.name u v r s) (reg f u) (reg f' v) where
  runs c d r c' hcd hrun := by
    obtain ⟨ty, hty⟩ := hv
    obtain ⟨s, d', hrun'⟩ : ∃ s d', (Selection.reg f' v).run d = .ok (s, d') := ⟨_, _, run_reg hty d⟩
    have hc := reg_reaches hcd.left hrun
    have hd := reg_reaches hcd.right hrun'
    have hsync : Sync c' d' :=
      ⟨hc.valid, hd.valid, by rw [hc.plan, hd.plan, hcd.plan], by rw [hc.pool, hd.pool, hcd.pool]⟩
    refine ⟨s, d', _, [], [], hrun', rfl, hsync, hc.grows, hd.grows, by simp [hc.out], by simp [hd.out],
      fun hleft hright σ τ h => ?_⟩
    refine { h.grow hc.grows hd.grows with named := fun u' v' r' s' hn => ?_ }
    rcases List.mem_cons.mp hn with hn | hn
    · cases hn
      exact ⟨hleft.values _ _ hc.register, hright.values _ _ hd.register⟩
    · exact h.named u' v' r' s' hn

/-- New registers. -/
theorem temp (cls : RegClass) : Twin E L (fun r s L' => L' = L.reserve r s) (temp cls) (temp cls) where
  runs c d r c' hcd hrun := by
    cases hrun
    refine ⟨_, _, _, [], [], rfl, rfl, ⟨hcd.left.newVReg cls, hcd.right.newVReg cls, hcd.plan, hcd.pool⟩,
      grows_newVReg c cls, grows_newVReg d cls, by simp, by simp, fun hleft hright σ τ h => ?_⟩
    have hc := isTemp_newVReg hcd.left hleft
    have hd := isTemp_newVReg hcd.right hright
    have hold {r s : Reg} (hrs : (r, s) ∈ L.temps) :
        r ≠ .virt c.routine.numVRegs ∧ s ≠ .virt d.routine.numVRegs := by
      obtain ⟨⟨k, rfl, hk, -⟩, ⟨l, rfl, hl, -⟩⟩ := h.temps r s hrs
      exact ⟨fun he => by cases he; omega, fun he => by cases he; omega⟩
    refine { h.grow (grows_newVReg c cls) (grows_newVReg d cls) with
              temps := fun r s hrs => ?_, paired := fun r s r' s' hrs hrs' => ?_, held := fun r s hrs => ?_ }
    · rcases List.mem_cons.mp hrs with hrs | hrs
      · cases hrs
        exact ⟨hc, hd⟩
      · obtain ⟨hr, hs⟩ := h.temps r s hrs
        exact ⟨hr.grow (grows_newVReg c cls), hs.grow (grows_newVReg d cls)⟩
    · rcases List.mem_cons.mp hrs with hrs | hrs <;> rcases List.mem_cons.mp hrs' with hrs' | hrs'
      · cases hrs
        cases hrs'
        exact ⟨fun _ => rfl, fun _ => rfl⟩
      · cases hrs
        exact ⟨fun he => absurd he.symm (hold hrs').1, fun he => absurd he.symm (hold hrs').2⟩
      · cases hrs'
        exact ⟨fun he => absurd he (hold hrs).1, fun he => absurd he (hold hrs).2⟩
      · exact h.paired r s r' s' hrs hrs'
    · obtain ⟨htemp, heq⟩ := h.held r s hrs
      exact ⟨List.mem_cons_of_mem _ htemp, heq⟩

/-- One operation on each side. -/
theorem emit {L' : Ledger} {Q : Unit → Unit → Ledger → Prop} (hQ : Q () () L')
    (h : ∀ c σ d τ, Knows E L c σ d τ → Knows E L' c (E.meaning.act σ m) d (E.meaning.act τ n)) :
    Twin E L Q (emit m) (emit n) where
  runs c d a c' hcd hrun := by
    cases hrun
    exact ⟨(), _, L', [m], [n], rfl, hQ, ⟨⟨hcd.left.virt, hcd.left.inj⟩, ⟨hcd.right.virt, hcd.right.inj⟩, hcd.plan,
      hcd.pool⟩, grows_emit c m, grows_emit d n, rfl, rfl,
      fun _ _ σ τ hL => (h c σ d τ hL).grow (grows_emit c m) (grows_emit d n)⟩

/-- Operations that write assigned registers, or none. -/
theorem emitPhys (hmn : L.Alike m n) (hdefs : n.defs = m.defs) (hphys : ∀ r ∈ m.defs, ∃ p, r = .phys p) :
    Twin E L (fun _ _ L' => L' = L) (Selection.emit m) (Selection.emit n) :=
  emit rfl fun _ _ _ _ h => h.act_phys hmn hdefs hphys

/-- Operations that fill new registers. -/
theorem emitTemp (hmn : L.Alike m n) (hm : m.defs = [a]) (hn : n.defs = [b]) (hab : (a, b) ∈ L.temps) :
    Twin E L (fun _ _ L' => L' = L.hold a b) (Selection.emit m) (Selection.emit n) :=
  emit rfl fun _ _ _ _ h => h.act_temp hmn hm hn hab

theorem emitResult (hmn : L.Alike m n) (hm : m.defs = [a]) (hn : n.defs = [b]) (hv : (v, E.rename v, a, b) ∈ L.named)
    (hfresh : ∀ u ∈ L.operands, u ≠ E.rename v) (hnew : ∀ u ∈ L.results, u ≠ v ∧ E.rename u ≠ E.rename v) :
    Twin E L (fun _ _ L' => L' = L.write v) (Selection.emit m) (Selection.emit n) :=
  emit rfl fun _ _ _ _ h => h.act_result hmn hm hn hv hfresh hnew

/-- Copies of an operand to itself, and to a result that corresponds to it. -/
theorem emitSelf {r s : Reg} (hv : (v, E.rename v, a, b) ∈ L.named) (ho : v ∈ L.operands)
    (hrs : (v, v, r, s) ∈ L.named) (hfresh : ∀ u ∈ L.operands, u ≠ E.rename v)
    (hnew : ∀ u ∈ L.results, E.rename u ≠ E.rename v) :
    Twin E L (fun _ _ L' => L' = L.keep v) (Selection.emit (.copy a r)) (Selection.emit (.copy b s)) :=
  emit rfl fun _ _ _ _ h => h.act_self hv ho hrs hfresh hnew

section Fresh

variable {cls : RegClass} {op op' : Reg → Pseudo} (hdefs : ∀ r, (op r).defs = [r]) (hdefs' : ∀ r, (op' r).defs = [r])
  (hop : ∀ r s, L.Alike (op r) (op' s))
include hdefs hdefs' hop

/-- New registers with the results of operations, and what is done with them. -/
theorem freshThen {k : Reg → Select α} {l : Reg → Select β}
    (hk : ∀ r s L', L.Extends L' → (r, s) ∈ L'.held → Twin E L' Q (k r) (l s)) :
    Twin E L Q (do let r ← Selection.temp cls; Selection.emit (op r); k r)
      (do let s ← Selection.temp cls; Selection.emit (op' s); l s) := by
  refine (temp cls).bind fun r s _ hL => ?_
  subst hL
  refine (emitTemp ⟨(hop r s).shape, (hop r s).uses.imp fun _ _ h => h.mono Ledger.extends_reserve⟩ (hdefs r) (hdefs' s)
    (by simp [Ledger.reserve])).bind fun _ _ _ hL => ?_
  subst hL
  exact hk r s _ (Ledger.extends_reserve.trans Ledger.extends_hold) (by simp [Ledger.hold])

theorem fresh : Twin E L (fun r s L' => L.Extends L' ∧ (r, s) ∈ L'.held)
    (do let r ← Selection.temp cls; Selection.emit (op r); return r)
    (do let s ← Selection.temp cls; Selection.emit (op' s); return s) :=
  freshThen hdefs hdefs' hop fun _ _ _ hL hrs => .pure ⟨hL, hrs⟩

end Fresh

theorem withPlan (step : FramePlan → α × FramePlan) :
    Twin E L (fun a b L' => b = a ∧ L' = L) (withPlan step) (withPlan step) where
  runs c d a c' hcd hrun := by
    cases hrun
    refine ⟨_, _, L, [], [], rfl, ⟨by rw [hcd.plan], rfl⟩, .silent ?_ ⟨fun _ _ => id, Nat.le_refl _, fun _ _ => .inl⟩
      ⟨fun _ _ => id, Nat.le_refl _, fun _ _ => .inl⟩ rfl rfl⟩
    exact ⟨⟨hcd.left.virt, hcd.left.inj⟩, ⟨hcd.right.virt, hcd.right.inj⟩,
      congrArg (fun plan => (step plan).2) hcd.plan, hcd.pool⟩

/-- The frame so far. -/
theorem get : Twin E L (fun c d L' => d.plan = c.plan ∧ L' = L) (get : Select Context) (get : Select Context) where
  runs c d a c' hcd hrun := by
    cases hrun
    exact ⟨d, d, L, [], [], rfl, ⟨hcd.plan.symm, rfl⟩, .refl hcd⟩

/-- A constant has the same number on both sides. -/
theorem addConstant {k : Nat → Select α} {l : Nat → Select β} (bytes : List UInt8) (hk : ∀ i, Twin E L Q (k i) (l i)) :
    Twin E L Q
      (do let cx ← MonadState.get
          set { cx with routine := (cx.routine.addConstant bytes).2 }
          k (cx.routine.addConstant bytes).1)
      (do let cx ← MonadState.get
          set { cx with routine := (cx.routine.addConstant bytes).2 }
          l (cx.routine.addConstant bytes).1) where
  runs c d a c' hcd hrun := by
    have hadded : Paired E L c d L { c with routine := (c.routine.addConstant bytes).2 }
        { d with routine := (d.routine.addConstant bytes).2 } [] [] :=
      .silent (hcd.addConstant bytes) (grows_addConstant c bytes) (grows_addConstant d bytes) rfl rfl
    obtain ⟨b, d', L', ms, ns, hl, hQ, hpaired⟩ := (hk _).runs _ _ a c' hadded.sync hrun
    rw [(addConstant_congr bytes hcd.pool).1] at hl
    exact ⟨b, d', L', ms, ns, hl, hQ, hadded.trans hpaired⟩

section Loops

variable {ι κ : Type} {xs : List ι}

theorem forM {P : ι → κ → Prop} {ys : List κ} {step : ι → Select PUnit} {step' : κ → Select PUnit}
    (hxy : List.Forall₂ P xs ys) (h : ∀ x y, P x y → Twin E L (fun _ _ L' => L' = L) (step x) (step' y)) :
    Twin E L (fun _ _ L' => L' = L) (xs.forM step) (ys.forM step') := by
  induction hxy with
  | nil => exact .pure rfl
  | cons hP _ ih =>
    refine (h _ _ hP).bind fun _ _ _ hL => ?_
    subst hL
    exact ih

theorem filterMapM {P : Ledger → α → β → Prop} {step : ι → Select (Option α)} {step' : ι → Select (Option β)}
    (hP : ∀ L1 L2 a b, L1.Extends L2 → P L1 a b → P L2 a b)
    (h : ∀ x ∈ xs, ∀ L1, L.Extends L1 → Twin E L1 (fun o p L2 => L1.Extends L2 ∧
      Option.Rel (P L2) o p) (step x) (step' x)) :
    Twin E L (fun as bs L' => L.Extends L' ∧ List.Forall₂ (P L') as bs) (xs.filterMapM step) (xs.filterMapM step') := by
  have hloop (as : List α) (bs : List β) (L1 : Ledger) (hL : L.Extends L1) (hab : List.Forall₂ (P L1) as bs) :
      Twin E L1 (fun as bs L' => L.Extends L' ∧ List.Forall₂ (P L') as bs) (List.filterMapM.loop step xs as)
        (List.filterMapM.loop step' xs bs) := by
    induction xs generalizing as bs L1 with
    | nil => exact .pure ⟨hL, List.rel_reverse hab⟩
    | cons x xs ih =>
      refine (h x (by simp) L1 hL).bind fun o p L2 ⟨hL2, hop⟩ => ?_
      have hrest := ih fun y hy => h y (by simp [hy])
      have hab2 : List.Forall₂ (P L2) as bs := hab.imp fun a b => hP L1 L2 a b hL2
      cases hop with
      | none => exact hrest as bs L2 (hL.trans hL2) hab2
      | some hone => exact hrest _ _ L2 (hL.trans hL2) (.cons hone hab2)
  exact hloop [] [] L (.refl L) .nil

end Loops

end Twin

end DirectPage.Selection
