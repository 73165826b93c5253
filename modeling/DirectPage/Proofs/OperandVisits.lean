import Mathlib.Data.List.Perm.Basic
import DirectPage.Proofs.Interpretation

/-! The views of the operands of an operation agree.

An operation is its shape with registers filled in, in order of appearance. What it reads and what it writes are these
registers in another order, together with assigned registers that belong to the shape. -/
namespace DirectPage.Pseudo

variable {g : Reg → Reg} {m n : Pseudo} {d e : Reg}

def fixed : Pseudo → List Register
  | call _ args clobbers => args ++ clobbers
  | ret results => results
  | push reg | pop reg => [reg]
  | _ => []

def refill : Pseudo → List Reg → Pseudo
  | loadImm _ value, [dst] => loadImm dst value
  | loadAddr _ target, [dst] => loadAddr dst target
  | frameAddr _ index offset, [dst] => frameAddr dst index offset
  | spAddr _ offset, [dst] => spAddr dst offset
  | copy _ _, [dst, src] => copy dst src
  | alu op _ _ _, [dst, lhs, rhs] => alu op dst lhs rhs
  | aluImm op _ _ imm, [dst, lhs] => aluImm op dst lhs imm
  | mulDiv op _ _ _, [dst, lhs, rhs] => mulDiv op dst lhs rhs
  | shift op _ _ amount, dst :: src :: rest => shift op dst src (amount.map rest.headD)
  | unary op _ _, [dst, src] => unary op dst src
  | load _ width ext base offset, dst :: rest => load dst width ext (base.map rest.headD) offset
  | store _ width base offset, src :: rest => store src width (base.map rest.headD) offset
  | fload _ prec base, dst :: rest => fload dst prec (base.map rest.headD)
  | fstore _ prec base, src :: rest => fstore src prec (base.map rest.headD)
  | falu op prec _ _ _, [dst, lhs, rhs] => falu op prec dst lhs rhs
  | funary op prec _ _, [dst, src] => funary op prec dst src
  | ftoi prec _ _, [dst, src] => ftoi prec dst src
  | itof prec _ _, [dst, src] => itof prec dst src
  | fconvert prec _ _, [dst, src] => fconvert prec dst src
  | floatBits _ _, [dst, src] => floatBits dst src
  | bitsFloat _ _, [dst, src] => bitsFloat dst src
  | selectCc (.int cc _ (.reg _)) _ _ _, [lhs, rhs, dst, onTrue, onFalse] =>
    selectCc (.int cc lhs (.reg rhs)) dst onTrue onFalse
  | selectCc (.int cc _ (.imm k)) _ _ _, [lhs, dst, onTrue, onFalse] =>
    selectCc (.int cc lhs (.imm k)) dst onTrue onFalse
  | selectCc (.float cc prec _ _) _ _ _, [lhs, rhs, dst, onTrue, onFalse] =>
    selectCc (.float cc prec lhs rhs) dst onTrue onFalse
  | dynAlloc _ _ align, [dst, size] => dynAlloc dst size align
  | call (.reg _) args clobbers, [r] => call (.reg r) args clobbers
  | brCc (.int cc _ (.reg _)) target, [lhs, rhs] => brCc (.int cc lhs (.reg rhs)) target
  | brCc (.int cc _ (.imm k)) target, [lhs] => brCc (.int cc lhs (.imm k)) target
  | brCc (.float cc prec _ _) target, [lhs, rhs] => brCc (.float cc prec lhs rhs) target
  | m, _ => m

theorem refill_shape (m : Pseudo) : m.shape.refill m.regs = m := by
  cases m with
  | shift _ _ _ x | load _ _ _ x | store _ _ x | fload _ _ x | fstore _ _ x | call x => cases x <;> rfl
  | selectCc cmp | brCc cmp => rcases cmp with ⟨_, _, _ | _⟩ | _ <;> rfl
  | _ => rfl

/-- Shape and registers make up an operation. -/
theorem eq_of_shape_of_regs (hs : m.shape = n.shape) (hr : m.regs = n.regs) : m = n := by
  rw [← m.refill_shape, hs, hr, n.refill_shape]

theorem shape_mapRegs (g : Reg → Reg) (m : Pseudo) : (m.mapRegs g).shape = m.shape := mapRegs_mapRegs g _ m

/-- Visiting changes the registers and nothing else. -/
theorem eq_mapRegs_iff : n = m.mapRegs g ↔ n.shape = m.shape ∧ n.regs = m.regs.map g := by
  constructor
  · rintro rfl
    exact ⟨m.shape_mapRegs g, m.regs_mapRegs g⟩
  · rintro ⟨hs, hr⟩
    exact eq_of_shape_of_regs (by rw [hs, shape_mapRegs]) (by rw [hr, regs_mapRegs])

/-- What is visited, with the assigned registers of the shape, is what is read and what is written, each as often. -/
theorem regs_perm (m : Pseudo) : (m.regs ++ m.fixed.map Reg.phys).Perm (m.uses ++ m.defs) := by
  -- A result is visited in front of what is read.
  have hfront : ∀ (d : Reg) (us : List Reg), (d :: us ++ []).Perm (us ++ [d]) := by
    intro d us
    rw [List.append_nil]
    exact (List.perm_append_singleton d us).symm
  cases m with
  | selectCc cmp dst onTrue onFalse =>
    simp only [regs, fixed, uses, defs, dst?, Option.toList_some, List.map_nil, List.append_nil, List.append_assoc]
    exact List.Perm.append_left _ (hfront dst [onTrue, onFalse])
  | call target args clobbers =>
    cases target with
    | symbol name => simp [regs, fixed, uses, defs]
    | reg r =>
      simp only [regs, fixed, uses, defs, List.map_append, List.append_assoc, List.singleton_append]
      exact List.perm_middle.symm
  | ret results => simp [regs, fixed, uses, defs, dst?]
  | store src width base offset => exact .refl _
  | fstore src prec base => exact .refl _
  | _ => first | exact hfront _ _ | simp [regs, fixed, uses, defs, dst?]

/-- A virtual register is visited as often as it is read and written. -/
theorem virt_regs_perm (m : Pseudo) :
    (m.regs.filterMap Reg.virt?).Perm ((m.uses ++ m.defs).filterMap Reg.virt?) := by
  have hfixed : (m.fixed.map Reg.phys).filterMap Reg.virt? = [] := by
    rw [List.filterMap_map]
    exact List.filterMap_eq_nil_iff.mpr fun _ _ => rfl
  have hperm := m.regs_perm.filterMap Reg.virt?
  rwa [List.filterMap_append, hfixed, List.append_nil] at hperm

theorem withDst_of_none (h : m.dst? = none) (d : Reg) : m.withDst d = m := by
  cases m <;> cases h <;> rfl

theorem shape_withDst (d : Reg) (m : Pseudo) : (m.withDst d).shape = m.shape := by
  cases hd : m.dst? with
  | none => rw [withDst_of_none hd]
  | some e => rw [shape, withDst_mapRegs, withDst_self (by rw [dst?_mapRegs, hd]; rfl), shape]

theorem defs_of_dst? (h : m.dst? = some e) : m.defs = [e] := by
  cases m <;> cases h <;> rfl

/-- An operation without a single result writes assigned registers only. -/
theorem defs_of_none (h : m.dst? = none) {v : Nat} : .virt v ∉ m.defs := by
  cases m <;> cases h <;> simp [defs, dst?]

/-- Whether there is a single result depends on the shape only. -/
theorem isSome_dst?_of_shape (h : n.shape = m.shape) : n.dst?.isSome = m.dst?.isSome := by
  have hshape : ∀ p : Pseudo, p.shape.dst?.isSome = p.dst?.isSome := fun p => by simp [shape, dst?_mapRegs]
  rw [← hshape, h, hshape]

/-- There is a single result exactly if an operation of this shape writes a virtual register. -/
theorem isSome_dst?_iff : m.dst?.isSome = true ↔ ∃ (n : Pseudo) (v : Nat), n.shape = m.shape ∧ .virt v ∈ n.defs := by
  constructor
  · intro h
    obtain ⟨e, he⟩ := Option.isSome_iff_exists.mp h
    have hdst : (m.withDst (.virt 0)).dst? = some (.virt 0) := by rw [dst?_withDst, he]; rfl
    exact ⟨m.withDst (.virt 0), 0, m.shape_withDst _, by simp [defs_of_dst? hdst]⟩
  · rintro ⟨n, v, hs, hv⟩
    rw [← isSome_dst?_of_shape hs, Option.isSome_iff_ne_none]
    exact fun hn => defs_of_none hn hv

/-- The views of operands agree. The visited virtual registers are those that are read or written, each as often.
Visiting with a map that keeps assigned registers maps what is read and what is written one by one, and gives the only
operation of the same shape with mapped registers. There is a single result exactly if an operation of this shape can
write a virtual register; it is then all that is written, and another one in its place changes neither what is read
nor the shape. -/
theorem visits_agree (hg : ∀ r, g (.phys r) = .phys r) (m : Pseudo) :
    (m.regs.filterMap Reg.virt?).Perm ((m.uses ++ m.defs).filterMap Reg.virt?) ∧
    ((m.mapRegs g).uses = m.uses.map g ∧ (m.mapRegs g).defs = m.defs.map g) ∧
    (∀ n, n = m.mapRegs g ↔ n.shape = m.shape ∧ n.regs = m.regs.map g) ∧
    (m.dst?.isSome = true ↔ ∃ (n : Pseudo) (v : Nat), n.shape = m.shape ∧ .virt v ∈ n.defs) ∧
    ∀ e, m.dst? = some e → m.defs = [e] ∧ ∀ d, (m.withDst d).defs = [d] ∧ (m.withDst d).uses = m.uses ∧
      (m.withDst d).shape = m.shape := by
  refine ⟨m.virt_regs_perm, ⟨uses_mapRegs hg m, defs_mapRegs hg m⟩, fun n => eq_mapRegs_iff, isSome_dst?_iff,
    fun e he => ⟨defs_of_dst? he, fun d => ⟨?_, m.uses_withDst d, m.shape_withDst d⟩⟩⟩
  exact defs_of_dst? (by rw [dst?_withDst, he]; rfl)

def smaller : Pseudo := .selectCc (.int .lt (.virt 0) (.reg (.virt 1))) (.virt 0) (.virt 0) (.virt 1)

def firstOnly : RegMap := fun v => if v = 0 then some (.general 5) else none

theorem visits_agree_smaller :
    (∀ r, firstOnly.apply (.phys r) = .phys r) ∧
    (smaller.mapRegs firstOnly.apply).uses = [.phys (.general 5), .virt 1, .phys (.general 5), .virt 1] ∧
    (smaller.mapRegs firstOnly.apply).defs = [.phys (.general 5)] ∧
    (smaller.withDst (.virt 2)).uses = [.virt 0, .virt 1, .virt 0, .virt 1] := by
  obtain ⟨-, ⟨huses, hdefs⟩, -, -, hdst⟩ := visits_agree firstOnly.apply_phys smaller
  exact ⟨firstOnly.apply_phys, huses, hdefs, ((hdst _ rfl).2 (.virt 2)).2.1⟩

end DirectPage.Pseudo
