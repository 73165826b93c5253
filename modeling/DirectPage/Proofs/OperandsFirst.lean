import DirectPage.Proofs.ShiftParts
import DirectPage.Proofs.TwinRules

/-! Selection reads the operands of an instruction before it writes its results: which of the results are operands as
well makes no difference, but for one move of a pair of words. -/
namespace DirectPage

namespace Ir.Inst

def mapDefs (g : Value → Value) : Inst → Inst
  | const dst value => const (g dst) value
  | fconst dst value => fconst (g dst) value
  | copy dst src => copy (g dst) src
  | binary op dst lhs rhs => binary op (g dst) lhs rhs
  | unary op dst src => unary op (g dst) src
  | fbinary op dst lhs rhs => fbinary op (g dst) lhs rhs
  | funary op dst src => funary op (g dst) src
  | convert op dst src => convert op (g dst) src
  | setCc cc dst lhs rhs => setCc cc (g dst) lhs rhs
  | fsetCc cc dst lhs rhs => fsetCc cc (g dst) lhs rhs
  | select dst cond onTrue onFalse => select (g dst) cond onTrue onFalse
  | selectCc cc dst lhs rhs onTrue onFalse => selectCc cc (g dst) lhs rhs onTrue onFalse
  | fselectCc cc dst lhs rhs onTrue onFalse => fselectCc cc (g dst) lhs rhs onTrue onFalse
  | shiftParts op dstLo dstHi lo hi amount => shiftParts op (g dstLo) (g dstHi) lo hi amount
  | load dst ty ext addr => load (g dst) ty ext addr
  | store src ty addr => store src ty addr
  | globalAddr dst symbol => globalAddr (g dst) symbol
  | externalSymbol dst name => externalSymbol (g dst) name
  | blockAddr dst block => blockAddr (g dst) block
  | slotAddr dst slot => slotAddr (g dst) slot
  | frameAddr dst depth => frameAddr (g dst) depth
  | returnAddr dst depth => returnAddr (g dst) depth
  | dynAlloca dst size align => dynAlloca (g dst) size align
  | vaStart list => vaStart list
  | call callee args numFixed results => call callee args numFixed (results.map g)

/-- Whether a pair of words is moved as it is, its low word to where its high word is read from. -/
def overwrites : Inst → Bool
  | shiftParts _ dstLo _ lo hi (.imm k) => k.toNat % 64 == 0 && dstLo == hi && lo != hi
  | _ => false

end Ir.Inst

namespace Selection

section Select

variable {V S : Type} {E : Twins V S} {L : Ledger} {f f' : Ir.Function} {inst : Ir.Inst}

theorem twin_selectInst (h : Renames f f' E.rename inst.uses inst.defs) (hdefs : inst.defs.Nodup)
    (hover : inst.overwrites = false) (hL : Reading inst.uses L) :
    Twin E L (Writes inst.defs) (selectInst f inst) (selectInst f' (inst.mapDefs E.rename)) := by
  cases inst with
  | const dst value => exact twin_const h hL
  | fconst dst value => exact twin_fconst h hL
  | copy dst src => exact twin_copy h hL
  | binary op dst lhs rhs => exact twin_binary h hL
  | unary op dst src => exact twin_unary h hL
  | fbinary op dst lhs rhs => exact twin_fbinary h hL
  | funary op dst src => exact twin_funary h hL
  | convert op dst src => exact twin_convert h hL
  | setCc cc dst lhs rhs => exact twin_setCc h hL
  | fsetCc cc dst lhs rhs => exact twin_fsetCc h hL
  | select dst cond onTrue onFalse => exact twin_selectCc h hL
  | selectCc cc dst lhs rhs onTrue onFalse => exact twin_selectCc h hL
  | fselectCc cc dst lhs rhs onTrue onFalse => exact twin_fselectCc h hL
  | shiftParts op dstLo dstHi lo hi amount =>
    refine twin_shiftParts h (by simpa [Ir.Inst.defs] using hdefs) ?_ hL
    rintro k rfl hk rfl
    simpa [Ir.Inst.overwrites, hk] using hover
  | load dst ty ext addr => exact twin_load h hL
  | store src ty addr => exact twin_store h hL
  | globalAddr dst symbol => exact twin_address h hL
  | externalSymbol dst name => exact twin_address h hL
  | blockAddr dst block => exact twin_address h hL
  | slotAddr dst slot => exact twin_slotAddr h hL
  | frameAddr dst depth => exact twin_frameAddr h hL
  | returnAddr dst depth => exact twin_returnAddr h hL
  | dynAlloca dst size align => exact twin_dynAlloca h hL
  | vaStart list => exact twin_vaStart h hL
  | call callee args numFixed results => exact twin_call h hdefs hL

end Select

/-- States with the same outside of virtual registers, and in the registers that values have: `vs` in the first context,
and what `g` gives for them in the second. -/
structure AgreeOn {V S : Type} (c d : Context) (g : Ir.Value → Ir.Value) (vs : List Ir.Value) (σ τ : Cells V S) :
    Prop where
  rest : σ.rest = τ.rest
  phys : ∀ p, σ.regs (.phys p) = τ.regs (.phys p)
  values : ∀ v ∈ vs, ∀ r s, c.values.lookup v = some r → d.values.lookup (g v) = some s → σ.regs r = τ.regs s

/-- Operations that leave the same in results where they find the same in operands, whatever operations mean. As words,
both have results or neither has. -/
structure SameResults (c d : Context) (g : Ir.Value → Ir.Value) (uses defs : List Ir.Value) (ms ns : List Pseudo) :
    Prop where
  any : ∀ (V S : Type) (M : Meaning V S) (σ τ : Cells V S), AgreeOn c d id uses σ τ →
    AgreeOn c d g defs (M.actAll σ ms) (M.actAll τ ns)
  words : ∀ st st', AgreeOn c d id uses (Meaning.ofStore st) (Meaning.ofStore st') →
    Option.Rel (fun a b => AgreeOn c d g defs (Meaning.ofStore a) (Meaning.ofStore b)) (Pseudo.evalAll st ms)
      (Pseudo.evalAll st' ns)

section Agree

variable {c d : Context} {g : Ir.Value → Ir.Value} {uses defs : List Ir.Value} {ms ns : List Pseudo}

/-- What words do is one meaning of operations. -/
theorem SameResults.of_any (h : ∀ (V S : Type) (M : Meaning V S) (σ τ : Cells V S), AgreeOn c d id uses σ τ →
    AgreeOn c d g defs (M.actAll σ ms) (M.actAll τ ns)) : SameResults c d g uses defs ms ns where
  any := h
  words st st' hagree := by
    have hwords := h _ _ .words _ _ hagree
    obtain ⟨hsome, hnone⟩ := Meaning.words_actAll st ms
    obtain ⟨hsome', hnone'⟩ := Meaning.words_actAll st' ns
    cases hm : Pseudo.evalAll st ms with
    | none =>
      have hrest := hwords.rest
      rw [hnone hm] at hrest
      cases hn : Pseudo.evalAll st' ns with
      | none => exact .none
      | some b =>
        rw [hsome' b hn] at hrest
        cases hrest
    | some a =>
      rw [hsome a hm] at hwords
      cases hn : Pseudo.evalAll st' ns with
      | none =>
        have hrest := hwords.rest
        rw [hnone' hn] at hrest
        cases hrest
      | some b =>
        rw [hsome' b hn] at hwords
        exact .some hwords

variable {V S : Type} {E : Twins V S} {L : Ledger} {σ τ : Cells V S}

theorem AgreeOn.knows (h : AgreeOn E.left E.right id uses σ τ) : Knows E { operands := uses } c σ d τ where
  rest := h.rest
  phys := h.phys
  operands := h.values
  results _ h := (List.not_mem_nil h).elim
  named _ _ _ _ h := (List.not_mem_nil h).elim
  temps _ _ h := (List.not_mem_nil h).elim
  paired _ _ _ _ h := (List.not_mem_nil h).elim
  held _ _ h := (List.not_mem_nil h).elim

theorem Knows.agreeOn (h : Knows E L c σ d τ) (hdefs : defs ⊆ L.results) :
    AgreeOn E.left E.right E.rename defs σ τ where
  rest := h.rest
  phys := h.phys
  values v hv r s hr hs := by
    obtain ⟨r', s', hr', hs', heq⟩ := h.results v (hdefs hv)
    cases hr.symm.trans hr'
    cases hs.symm.trans hs'
    exact heq

end Agree

/-- What selection of an instruction comes to, beside that of the same with other values for its results. -/
structure Corresponds (f' : Ir.Function) (inst : Ir.Inst) (g : Ir.Value → Ir.Value) (cx cx1 cx2 : Context)
    (ms ns : List Pseudo) : Prop where
  run : (selectInst f' (inst.mapDefs g)).run cx = .ok ((), cx2)
  left : cx1.out = cx.out ++ ms
  right : cx2.out = cx.out ++ ns
  /-- Values keep their registers, so that operands are the same in both. -/
  kept : ∀ v r, cx.values.lookup v = some r → cx1.values.lookup v = some r ∧ cx2.values.lookup v = some r
  registers : ∀ v ∈ inst.defs, ∃ r s, cx1.values.lookup v = some r ∧ cx2.values.lookup (g v) = some s

section Instructions

variable {f f' : Ir.Function} {inst : Ir.Inst} {g : Ir.Value → Ir.Value} {cx cx1 : Context}

theorem sameResults_of_not_overwrites (hv : Valid cx) (hdefs : inst.defs.Nodup) (h : Renames f f' g inst.uses inst.defs)
    (hrun : (selectInst f inst).run cx = .ok ((), cx1)) (hover : inst.overwrites = false) :
    ∃ cx2 ms ns, Corresponds f' inst g cx cx1 cx2 ms ns ∧ SameResults cx1 cx2 g inst.uses inst.defs ms ns := by
  have hsync : Sync cx cx := ⟨hv, hv, rfl, rfl⟩
  have hL : Reading inst.uses { operands := inst.uses } := ⟨rfl, rfl⟩
  -- the second selection succeeds, whatever operations mean and wherever they are to end
  obtain ⟨_, cx2, _, ms, ns, hrun2, -, hpaired⟩ :=
    (twin_selectInst (E := ⟨.words, cx, cx, hv, hv, g⟩) h hdefs hover hL).runs cx cx () cx1 hsync hrun
  have hknows {V S : Type} (M : Meaning V S) (σ τ : Cells V S) (hστ : AgreeOn cx1 cx2 id inst.uses σ τ) :
      ∃ L, inst.defs ⊆ L.results ∧
        Knows ⟨M, cx1, cx2, hpaired.sync.left, hpaired.sync.right, g⟩ L cx1 (M.actAll σ ms) cx2
          (M.actAll τ ns) := by
    obtain ⟨_, _, L, ms', ns', hrun', hL', hpaired'⟩ := (twin_selectInst
      (E := ⟨M, cx1, cx2, hpaired.sync.left, hpaired.sync.right, g⟩) h hdefs hover hL).runs cx cx () cx1 hsync hrun
    cases hrun2.symm.trans hrun'
    cases List.append_cancel_left (hpaired.outLeft.symm.trans hpaired'.outLeft)
    cases List.append_cancel_left (hpaired.outRight.symm.trans hpaired'.outRight)
    exact ⟨L, hL', hpaired'.knows (.refl cx1) (.refl cx2) σ τ hστ.knows⟩
  have hany (V S : Type) (M : Meaning V S) (σ τ : Cells V S) (hστ : AgreeOn cx1 cx2 id inst.uses σ τ) :
      AgreeOn cx1 cx2 g inst.defs (M.actAll σ ms) (M.actAll τ ns) := by
    obtain ⟨L, hL', hL⟩ := hknows M σ τ hστ
    exact hL.agreeOn hL'
  refine ⟨cx2, ms, ns, ⟨hrun2, hpaired.outLeft, hpaired.outRight, fun v r hr => ⟨hpaired.left.values v r hr,
    hpaired.right.values v r hr⟩, fun v hv => ?_⟩, .of_any hany⟩
  let zeros : Cells Word (Option (Nat → Word)) := ⟨fun _ => 0#32, none⟩
  obtain ⟨L, hL', hL⟩ := hknows .words zeros zeros ⟨rfl, fun _ => rfl, fun _ _ _ _ _ _ => rfl⟩
  obtain ⟨r, s, hr, hs, -⟩ := hL.results v (hL' hv)
  exact ⟨r, s, hr, hs⟩

structure MovesPair (dstLo dstHi lo hi : Ir.Value) (cx cx' : Context) (dl dh l h : Reg) : Prop where
  valid : Valid cx'
  grows : Grows cx cx'
  dstLo : cx'.values.lookup dstLo = some dl
  dstHi : cx'.values.lookup dstHi = some dh
  lo : cx'.values.lookup lo = some l
  hi : cx'.values.lookup hi = some h
  out : cx'.out = cx.out ++ [.copy dl l, .copy dh h]

theorem movesPair_of_shiftParts {op : Ir.ShiftPartsOp} {dstLo dstHi lo hi : Ir.Value} {k : Word} (hv : Valid cx)
    (hk : k.toNat % 64 = 0) (hrun : (shiftParts f op dstLo dstHi lo hi (.imm k)).run cx = .ok ((), cx1)) :
    ∃ dl dh l h, MovesPair dstLo dstHi lo hi cx cx1 dl dh l h := by
  obtain ⟨_, -, hrun⟩ := run_check hrun
  obtain ⟨l, c1, hl, hrun⟩ := run_bind hrun
  obtain ⟨h, c2, hh, hrun⟩ := run_bind hrun
  obtain ⟨dl, c3, hdl, hrun⟩ := run_bind hrun
  obtain ⟨dh, c4, hdh, hrun⟩ := run_bind hrun
  have hmoved : constantParts op l h 0 = pure (l, h) := rfl
  simp only [hk, hmoved, pure_bind] at hrun
  cases hrun
  have hl := reg_reaches hv hl
  have hh := reg_reaches hl.valid hh
  have hdl := reg_reaches hh.valid hdl
  have hdh := reg_reaches hdl.valid hdh
  have hgrows := hh.grows.trans (hdl.grows.trans hdh.grows)
  refine ⟨dl, dh, l, h, ⟨⟨hdh.valid.virt, hdh.valid.inj⟩, ?_, ?_, hdh.register, ?_, ?_, ?_⟩⟩
  · have hall := hl.grows.trans hgrows
    exact ⟨hall.values, hall.vregs, hall.new⟩
  · exact hdh.grows.values _ _ hdl.register
  · exact hgrows.values _ _ hl.register
  · exact (hdl.grows.trans hdh.grows).values _ _ hh.register
  · simp [hdh.out, hdl.out, hh.out, hl.out]

/-- Where the low word goes to where the high word is read from, both results are the low word. -/
theorem not_sameResults_of_movesPair {dstHi lo hi : Ir.Value} {cx2 : Context} {dl dh l h dl' dh' l' h' : Reg}
    (hne : lo ≠ hi) (hfresh : g hi ≠ hi) (hleft : MovesPair hi dstHi lo hi cx cx1 dl dh l h)
    (hright : MovesPair (g hi) (g dstHi) lo hi cx cx2 dl' dh' l' h') :
    ¬SameResults cx1 cx2 g [lo, hi] [hi, dstHi] [.copy dl l, .copy dh h] [.copy dl' l', .copy dh' h'] := by
  intro hsame
  obtain rfl : dl = h := Option.some.inj (hleft.dstLo.symm.trans hleft.hi)
  have hlh : l ≠ dl := fun he => hne (hleft.valid.inj _ _ _ hleft.lo (he ▸ hleft.hi))
  have hlh' : l' ≠ h' := fun he => hne (hright.valid.inj _ _ _ hright.lo (he ▸ hright.hi))
  have hdl' : h' ≠ dl' := fun he => hfresh (hright.valid.inj _ _ _ hright.dstLo (he ▸ hright.hi))
  -- the high word is one, and all else is zero
  let one (r : Reg) : Store := ⟨fun s => if s = r then 1#32 else 0#32, fun _ => 0#32⟩
  have hagree : AgreeOn cx1 cx2 id [lo, hi] (Meaning.ofStore (one dl)) (Meaning.ofStore (one h')) := by
    refine ⟨rfl, fun p => ?_, ?_⟩
    · obtain ⟨j, rfl, -⟩ := hleft.valid.virt _ _ hleft.hi
      obtain ⟨j', rfl, -⟩ := hright.valid.virt _ _ hright.hi
      rfl
    · simp only [List.forall_mem_cons, id]
      refine ⟨fun r s hr hs => ?_, fun r s hr hs => ?_, nofun⟩
      · cases hr.symm.trans hleft.lo
        cases hs.symm.trans hright.lo
        simp [Meaning.ofStore, one, hlh, hlh']
      · cases hr.symm.trans hleft.hi
        cases hs.symm.trans hright.hi
        simp [Meaning.ofStore, one]
  have heval (st : Store) (a b c d : Reg) : Pseudo.evalAll st [.copy a b, .copy c d] =
      some ((st.set a (st.regs b)).set c ((st.set a (st.regs b)).regs d)) := rfl
  have hwords := hsame.words _ _ hagree
  rw [heval, heval] at hwords
  cases hwords with
  | some hwords =>
    have heq := hwords.values dstHi (by simp) dh dh' hleft.dstHi hright.dstHi
    simp [Meaning.ofStore, Store.regs_set_ne _ hdl', one, hlh] at heq

theorem not_sameResults_of_overwrites (hv : Valid cx) (h : Renames f f' g inst.uses inst.defs)
    (hrun : (selectInst f inst).run cx = .ok ((), cx1)) (hover : inst.overwrites = true) :
    ∃ cx2 ms ns, Corresponds f' inst g cx cx1 cx2 ms ns ∧ ¬SameResults cx1 cx2 g inst.uses inst.defs ms ns := by
  cases inst with
  | shiftParts op dstLo dstHi lo hi amount =>
    cases amount with
    | value v => cases hover
    | imm k =>
      simp only [Ir.Inst.overwrites, Bool.and_eq_true, beq_iff_eq, bne_iff_ne] at hover
      obtain ⟨⟨hk, rfl⟩, hne⟩ := hover
      have hfresh : g dstLo ≠ dstLo := fun he => h.fresh dstLo (by simp [Ir.Inst.defs]) (by simp [he, Ir.Inst.uses])
      obtain ⟨dl, dh, l, r, hleft⟩ := movesPair_of_shiftParts hv hk hrun
      have htypes : ∀ v ∈ g dstLo :: g dstHi :: shiftSources lo dstLo (.imm k), ∃ ty, f'.valueType v = .ok ty := by
        simp only [List.forall_mem_cons]
        exact ⟨(h.results dstLo (by simp [Ir.Inst.defs])).typed, (h.results dstHi (by simp [Ir.Inst.defs])).typed,
          fun v hv => (h.operands v hv).typed⟩
      obtain ⟨_, cx2, -, -, hrun2, -⟩ :=
        shiftParts_makes op ⟨fun _ => 0#32, fun _ => 0#32⟩ hv htypes hfresh.symm
      obtain ⟨dl', dh', l', r', hright⟩ := movesPair_of_shiftParts hv hk hrun2
      refine ⟨cx2, _, _, ⟨hrun2, hleft.out, hright.out, fun v r hr => ?_, ?_⟩,
        not_sameResults_of_movesPair hne hfresh hleft hright⟩
      · exact ⟨hleft.grows.values v r hr, hright.grows.values v r hr⟩
      simp only [Ir.Inst.defs, List.forall_mem_cons]
      exact ⟨⟨dl, dl', hleft.dstLo, hright.dstLo⟩, ⟨dh, dh', hleft.dstHi, hright.dstHi⟩, List.forall_mem_nil _⟩
  | _ => cases hover

/-- An instruction that is selected is selected as well with other values for its results, different ones that are none
of its operands. However the results are among the operands, the operations leave the same in the registers of the
results, in every state and whatever operations mean. The one exception is the move of a pair of words as it is, its low
word to where its high word is read from; there they do not. -/
theorem selectInst_reads_first (hv : Valid cx) (hdefs : inst.defs.Nodup) (h : Renames f f' g inst.uses inst.defs)
    (hrun : (selectInst f inst).run cx = .ok ((), cx1)) :
    ∃ cx2 ms ns, Corresponds f' inst g cx cx1 cx2 ms ns ∧
      (SameResults cx1 cx2 g inst.uses inst.defs ms ns ↔ inst.overwrites = false) := by
  cases hover : inst.overwrites with
  | false =>
    obtain ⟨cx2, ms, ns, hcorr, hsame⟩ := sameResults_of_not_overwrites hv hdefs h hrun hover
    exact ⟨cx2, ms, ns, hcorr, fun _ => rfl, fun _ => hsame⟩
  | true =>
    obtain ⟨cx2, ms, ns, hcorr, hnot⟩ := not_sameResults_of_overwrites hv h hrun hover
    exact ⟨cx2, ms, ns, hcorr, fun hsame => (hnot hsame).elim, nofun⟩

def swapFunction : Ir.Function where
  name := "swap"
  valueTypes := [.i32, .i32, .i32, .i32]

def swappedShift (k : Word) : Ir.Inst := .shiftParts .shl 1 0 0 1 (.imm k)

def swapStart : Context := ⟨.empty "swap" 0, {}, [], []⟩

theorem selectInst_reads_first_swapped : ∃ cx1 cx2 ms ns,
    (selectInst swapFunction (swappedShift 4#32)).run swapStart = .ok ((), cx1) ∧
      Corresponds swapFunction (swappedShift 4#32) (· + 2) swapStart cx1 cx2 ms ns ∧
      SameResults cx1 cx2 (· + 2) [0, 1] [1, 0] ms ns := by
  have hstart : Valid swapStart := ⟨nofun, nofun⟩
  have hrenames : Renames swapFunction swapFunction (· + 2) (swappedShift 4#32).uses (swappedShift 4#32).defs := by
    refine ⟨rfl, ?_, ?_, by decide, by decide⟩
    · simp only [swappedShift, Ir.Inst.uses, Ir.Operand.values, List.forall_mem_cons]
      exact ⟨⟨⟨.i32, rfl⟩, fun _ => id⟩, ⟨⟨.i32, rfl⟩, fun _ => id⟩, List.forall_mem_nil _⟩
    · simp only [swappedShift, Ir.Inst.defs, List.forall_mem_cons]
      exact ⟨⟨⟨.i32, rfl⟩, fun _ => id⟩, ⟨⟨.i32, rfl⟩, fun _ => id⟩, List.forall_mem_nil _⟩
  obtain ⟨cx1, hrun⟩ : ∃ cx1, (selectInst swapFunction (swappedShift 4#32)).run swapStart = .ok ((), cx1) := ⟨_, rfl⟩
  obtain ⟨cx2, ms, ns, hcorr, hsame⟩ := selectInst_reads_first hstart (by decide) hrenames hrun
  exact ⟨cx1, cx2, ms, ns, hrun, hcorr, hsame.mpr rfl⟩

/-- A pair of words, shifted by zero to the same two values in the other order: the high result is the low word, and it
is the high word where the results are other values. -/
theorem selectInst_reads_first_overwritten : ∃ cx1 cx2 st1 st2,
    (selectInst swapFunction (swappedShift 0#32)).run swapStart = .ok ((), cx1) ∧
      (selectInst swapFunction ((swappedShift 0#32).mapDefs (· + 2))).run swapStart = .ok ((), cx2) ∧
      Pseudo.evalAll ⟨fun r => if r = .virt 0 then 5#32 else 9#32, fun _ => 0#32⟩ cx1.out = some st1 ∧
      Pseudo.evalAll ⟨fun r => if r = .virt 0 then 5#32 else 9#32, fun _ => 0#32⟩ cx2.out = some st2 ∧
      cx1.values.lookup 0 = some (.virt 0) ∧ st1.regs (.virt 0) = 5#32 ∧
      cx2.values.lookup 2 = some (.virt 3) ∧ st2.regs (.virt 3) = 9#32 :=
  ⟨_, _, _, _, rfl, rfl, rfl, rfl, rfl, rfl, rfl, rfl⟩

end Instructions

end Selection

end DirectPage
