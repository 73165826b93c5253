import DirectPage.Proofs.Layout
import DirectPage.Proofs.TwinRun

/-! The rules of selection for an instruction and for the same with other values for its results, one by one. Where the
results are written, the operands have been read. -/
namespace DirectPage.Selection

structure SameType (f f' : Ir.Function) (u v : Ir.Value) : Prop where
  typed : ∃ ty, f'.valueType v = .ok ty
  same : ∀ ty, f.valueType u = .ok ty → f'.valueType v = .ok ty

/-- The function `f'` has values for the results of an instruction of `f`, all different and none of them an operand. -/
structure Renames (f f' : Ir.Function) (g : Ir.Value → Ir.Value) (uses defs : List Ir.Value) : Prop where
  slots : f'.slots.length = f.slots.length
  operands : ∀ v ∈ uses, SameType f f' v v
  results : ∀ v ∈ defs, SameType f f' v (g v)
  fresh : ∀ v ∈ defs, g v ∉ uses
  distinct : (defs.map g).Nodup

structure Reading (uses : List Ir.Value) (L : Ledger) : Prop where
  operands : L.operands = uses
  results : L.results = []

def Writes (defs : List Ir.Value) (_ _ : Unit) (L : Ledger) : Prop := defs ⊆ L.results

section Rules

variable {V S : Type} {E : Twins V S} {L L' : Ledger} {f f' : Ir.Function} {uses defs : List Ir.Value}
  {u v dst src lhs rhs : Ir.Value} {operand : Ir.Operand} {a b r s : Reg} {m n : Pseudo}

theorem Reading.mono (h : Reading uses L) (hL : L.Extends L') : Reading uses L' :=
  ⟨hL.operands.trans h.operands, hL.results.trans h.results⟩

theorem SameType.precision (h : SameType f f' u v) (prec : Precision) (hu : precision f u = .ok prec) :
    Selection.precision f' v = .ok prec := by
  obtain ⟨ty, hty, hformat⟩ := bind_eq_ok.mp hu
  exact bind_eq_ok.mpr ⟨ty, h.same ty hty, hformat⟩

section

variable (h : Renames f f' E.rename uses defs)

include h

theorem Renames.slotIndex (slot i : Nat) (hi : slotIndex f slot = .ok i) : Selection.slotIndex f' slot = .ok i := by
  unfold Selection.slotIndex at hi ⊢
  split at hi
  · next hlt =>
    rw [h.slots, if_pos hlt]
    exact hi
  · cases hi

theorem Renames.operandReg (hv : v ∈ uses) :
    Twin E L (fun r s L' => L.Extends L' ∧ (v, v, r, s) ∈ L'.named) (reg f v) (reg f' v) := by
  refine (Twin.reg (h.operands v hv).typed).mono ?_
  rintro r s _ rfl
  exact ⟨Ledger.extends_name, by simp [Ledger.name]⟩

theorem Renames.read (hL : Reading uses L) (hv : v ∈ uses) :
    Twin E L (fun r s L' => L.Extends L' ∧ L'.Readable r s) (reg f v) (reg f' v) := by
  refine (h.operandReg hv).mono ?_
  rintro r s L' ⟨hL', hrs⟩
  exact ⟨hL', .operand ((hL.mono hL').operands ▸ hv) hrs⟩

/-- The register of a result. -/
theorem Renames.named (hv : v ∈ defs) :
    Twin E L (fun r s L' => L.Extends L' ∧ (v, E.rename v, r, s) ∈ L'.named) (reg f v) (reg f' (E.rename v)) := by
  refine (Twin.reg (h.results v hv).typed).mono ?_
  rintro r s _ rfl
  exact ⟨Ledger.extends_name, by simp [Ledger.name]⟩

theorem Renames.writeOne (hv : v ∈ defs) (hL : L.operands ⊆ uses)
    (hnew : ∀ u ∈ L.results, u ≠ v ∧ E.rename u ≠ E.rename v) (hn : (v, E.rename v, a, b) ∈ L.named)
    (hmn : L.Alike m n) (hma : m.defs = [a]) (hnb : n.defs = [b]) :
    Twin E L (fun _ _ L' => L' = L.write v) (emit m) (emit n) := by
  refine Twin.emitResult hmn hma hnb hn (fun u hu => ?_) hnew
  rintro rfl
  exact h.fresh v hv (hL hu)

end

theorem Renames.write (h : Renames f f' E.rename uses [v]) (hL : Reading uses L) (hv : (v, E.rename v, a, b) ∈ L.named)
    (hmn : L.Alike m n) (hm : m.defs = [a]) (hn : n.defs = [b]) : Twin E L (Writes [v]) (emit m) (emit n) := by
  refine (h.writeOne (by simp) (hL.operands ▸ List.Subset.refl _) (by simp [hL.results]) hv hmn hm hn).mono ?_
  rintro _ _ _ rfl
  simp [Writes, Ledger.write]

/-! ### Arithmetic -/

inductive Source.Like (L : Ledger) : Source → Source → Prop
  | reg {r s : Reg} (h : L.Readable r s) : Like L (.reg r) (.reg s)
  | imm (k : Word) : Like L (.imm k) (.imm k)

variable {p q : Source} {ty : Ir.Ty} {kind : ShiftKind} {cc : CondCode} {onTrue onFalse : Ir.Value} {callee : Ir.Callee}
  {op : Ir.BinOp} {addr : Ir.Address} {depth : Nat} {regs : List Register} {results : List Ir.Value}

theorem Source.Like.mono (h : p.Like L q) (hL : L.Extends L') : p.Like L' q := by
  cases h with
  | reg h => exact .reg (h.mono hL)
  | imm k => exact .imm k

theorem twin_source (h : Renames f f' E.rename uses defs) (hL : Reading uses L) (hv : operand.values ⊆ uses) :
    Twin E L (fun p q L' => L.Extends L' ∧ p.Like L' q) (source f operand) (source f' operand) := by
  cases operand with
  | value v =>
    exact (h.read hL (hv (by simp [Ir.Operand.values]))).bind fun r s L1 ⟨h1, hr⟩ => .pure ⟨h1, .reg hr⟩
  | imm k => exact .pure ⟨.refl L, .imm k⟩

theorem twin_extend {ext : UnaryOp} (hr : L.Readable r s) :
    Twin E L (fun a b L' => L.Extends L' ∧ (a, b) ∈ L'.held) (extend ext r) (extend ext s) :=
  .fresh (fun _ => rfl) (fun _ => rfl) fun _ _ => ⟨rfl, .cons hr .nil⟩

theorem twin_widen (hr : L.Readable r s) (hp : p.Like L q) :
    Twin E L (fun x y L' => L.Extends L' ∧ L'.Readable x.1 y.1 ∧ x.2.Like L' y.2) (widen op ty r p)
      (widen op ty s q) := by
  unfold widen
  cases signedness? op with
  | none => exact .pure ⟨.refl L, hr, hp⟩
  | some signed =>
    refine .check fun ext => (twin_extend hr).bind fun wide wide' L1 ⟨h1, hwide⟩ => ?_
    have hp1 := hp.mono h1
    cases hp1 with
    | reg hp1 =>
      split
      · exact .pure ⟨h1, .held hwide, .reg hp1⟩
      · exact .pure ⟨h1, .held hwide, .reg hp1⟩
      · next heq =>
        cases heq
        refine (twin_extend hp1).bind fun t t' L2 ⟨h2, ht⟩ => ?_
        exact .pure ⟨h1.trans h2, .held (h2.held hwide), .reg (.held ht)⟩
      · next heq => cases heq
    | imm k =>
      split
      · exact .pure ⟨h1, .held hwide, .imm k⟩
      · exact .pure ⟨h1, .held hwide, .imm k⟩
      · next heq => cases heq
      · next heq =>
        cases heq
        exact .pure ⟨h1, .held hwide, .imm _⟩

theorem twin_constant (k : Word) :
    Twin E L (fun r s L' => L.Extends L' ∧ (r, s) ∈ L'.held) (do let t ← temp .gpr; emit (.loadImm t k); return t)
      (do let t ← temp .gpr; emit (.loadImm t k); return t) :=
  .fresh (fun _ => rfl) (fun _ => rfl) fun _ _ => ⟨rfl, .nil⟩

theorem twin_inReg (h : p.Like L q) : Twin E L (fun r s L' => L.Extends L' ∧ L'.Readable r s) p.inReg q.inReg := by
  cases h with
  | reg h => exact .pure ⟨.refl L, h⟩
  | imm k =>
    exact (twin_constant k).mono fun r s L1 ⟨h1, hrs⟩ => ⟨h1, .held hrs⟩

theorem alike_shift (hr : L.Readable r s) (hp : p.Like L q) :
    L.Alike (.shift kind a r p.amount) (.shift kind b s q.amount) := by
  cases hp with
  | reg hp => exact ⟨rfl, .cons hr (.cons hp .nil)⟩
  | imm k => exact ⟨rfl, .cons hr .nil⟩

theorem twin_emitAlu {op : AluOp} (h : Renames f f' E.rename uses [v]) (hL : Reading uses L)
    (hv : (v, E.rename v, a, b) ∈ L.named) (hr : L.Readable r s) (hp : p.Like L q) :
    Twin E L (Writes [v]) (emitAlu op a r p) (emitAlu op b s q) := by
  cases hp with
  | reg hp => exact h.write hL hv ⟨rfl, .cons hr (.cons hp .nil)⟩ rfl rfl
  | imm k =>
    simp only [emitAlu]
    split
    · exact h.write hL hv ⟨rfl, .cons hr .nil⟩ rfl rfl
    · exact h.write hL hv ⟨rfl, .cons hr .nil⟩ rfl rfl

theorem twin_binary (h : Renames f f' E.rename (lhs :: operand.values) [dst]) (hL : Reading (lhs :: operand.values) L) :
    Twin E L (Writes [dst]) (binary f op dst lhs operand) (binary f' op (E.rename dst) lhs operand) := by
  refine .lift (h.results dst (by simp)).same fun ty _ => .check fun act => ?_
  refine (h.named (by simp)).bind fun d d' L1 ⟨h1, hd⟩ => ?_
  refine (h.read (hL.mono h1) (by simp)).bind fun l l' L2 ⟨h2, hl⟩ => ?_
  refine (twin_source h ((hL.mono h1).mono h2) (by simp)).bind fun p q L3 ⟨h3, hp⟩ => ?_
  have hL3 := ((hL.mono h1).mono h2).mono h3
  extract_lets jp jp'
  have hjp (x y : Reg × Source) (L4 : Ledger) (h4 : L3.Extends L4) (hx : L4.Readable x.1 y.1) (hxy : x.2.Like L4 y.2) :
      Twin E L4 (Writes [dst]) (jp x) (jp' y) := by
    have hL4 := hL3.mono h4
    have hd4 := h4.named (h3.named (h2.named hd))
    dsimp only [jp, jp']
    split
    · exact twin_emitAlu h hL4 hd4 hx hxy
    · exact h.write hL4 hd4 (alike_shift hx hxy) rfl rfl
    · refine (twin_inReg hxy).bind fun t t' L5 ⟨h5, ht⟩ => ?_
      exact h.write (hL4.mono h5) (h5.named hd4) ⟨rfl, .cons (hx.mono h5) (.cons ht .nil)⟩ rfl rfl
    · exact .fail _
  split
  · exact (twin_widen (hl.mono h3) hp).bind fun x y L4 ⟨h4, hx, hxy⟩ => hjp x y L4 h4 hx hxy
  · exact hjp (l, p) (l', q) L3 (.refl L3) (hl.mono h3) hp

section

variable (h : Renames f f' E.rename [src] [dst]) (hL : Reading [src] L)

include h hL

theorem twin_unary {op : Ir.UnOp} : Twin E L (Writes [dst]) (unary f op dst src) (unary f' op (E.rename dst) src) := by
  refine .lift (h.results dst (by simp)).same fun ty _ => .check fun _ => ?_
  refine (h.named (by simp)).bind fun d d' L1 ⟨h1, hd⟩ => ?_
  refine (h.read (hL.mono h1) (by simp)).bind fun s s' L2 ⟨h2, hs⟩ => ?_
  exact h.write ((hL.mono h1).mono h2) (h2.named hd) ⟨rfl, .cons hs .nil⟩ rfl rfl

theorem twin_copy : Twin E L (Writes [dst]) (copy f dst src) (copy f' (E.rename dst) src) := by
  refine .lift (h.results dst (by simp)).same fun dt _ => .lift (h.operands src (by simp)).same fun st _ => ?_
  extract_lets jp jp'
  have hjp : Twin E L (Writes [dst]) (jp ()) (jp' ()) := by
    refine (h.named (by simp)).bind fun d d' L1 ⟨h1, hd⟩ => ?_
    refine (h.read (hL.mono h1) (by simp)).bind fun s s' L2 ⟨h2, hs⟩ => ?_
    exact h.write ((hL.mono h1).mono h2) (h2.named hd) ⟨rfl, .cons hs .nil⟩ rfl rfl
  split
  · exact .check fun _ => hjp
  · exact hjp

theorem twin_funary {op : Ir.FUnOp} :
    Twin E L (Writes [dst]) (funary f op dst src) (funary f' op (E.rename dst) src) := by
  refine .lift (h.results dst (by simp)).same fun ty _ => .check fun _ => ?_
  refine .lift (h.results dst (by simp)).precision fun prec _ => ?_
  refine (h.named (by simp)).bind fun d d' L1 ⟨h1, hd⟩ => ?_
  refine (h.read (hL.mono h1) (by simp)).bind fun s s' L2 ⟨h2, hs⟩ => ?_
  exact h.write ((hL.mono h1).mono h2) (h2.named hd) ⟨rfl, .cons hs .nil⟩ rfl rfl

theorem twin_convert {op : Ir.ConvOp} :
    Twin E L (Writes [dst]) (convert f op dst src) (convert f' op (E.rename dst) src) := by
  refine .lift (h.results dst (by simp)).same fun dt _ => .lift (h.operands src (by simp)).same fun st _ => ?_
  refine .check fun _ => (h.named (by simp)).bind fun d d' L1 ⟨h1, hd⟩ => ?_
  refine (h.read (hL.mono h1) (by simp)).bind fun s s' L2 ⟨h2, hs⟩ => ?_
  have hL2 := (hL.mono h1).mono h2
  have hd2 := h2.named hd
  cases op with
  | fpToSi =>
    exact .lift (h.operands src (by simp)).precision fun prec _ => h.write hL2 hd2 ⟨rfl, .cons hs .nil⟩ rfl rfl
  | siToFp | fpExt | fpTrunc =>
    exact .lift (h.results dst (by simp)).precision fun prec _ => h.write hL2 hd2 ⟨rfl, .cons hs .nil⟩ rfl rfl
  | bitcast =>
    dsimp only
    split
    · exact h.write hL2 hd2 ⟨rfl, .cons hs .nil⟩ rfl rfl
    · exact h.write hL2 hd2 ⟨rfl, .cons hs .nil⟩ rfl rfl
    · exact .fail _
  | fpToUi | uiToFp => exact .fail _

end

/-! ### Compares -/

inductive Fused.Like (L : Ledger) : Fused → Fused → Prop
  | constant (b : Bool) : Like L (.constant b) (.constant b)
  | compare {cmp cmp' : Compare} (shape : cmp.map (fun _ => .virt 0) = cmp'.map fun _ => .virt 0)
    (regs : List.Forall₂ L.Readable cmp.regs cmp'.regs) : Like L (.compare cmp) (.compare cmp')

theorem Fused.Like.mono {p q : Fused} (h : p.Like L q) (hL : L.Extends L') : p.Like L' q := by
  cases h with
  | constant b => exact .constant b
  | compare shape regs => exact .compare shape (regs.imp fun _ _ h => h.mono hL)

inductive RhsLike (L : Ledger) : CmpRhs Reg → CmpRhs Reg → Prop
  | reg {r s : Reg} (h : L.Readable r s) : RhsLike L (.reg r) (.reg s)
  | imm (k : Word) : RhsLike L (.imm k) (.imm k)

/-- Canonical form depends on relations and constants only. -/
theorem like_intCompare {p q : CmpRhs Reg} (hr : L.Readable r s) (hp : RhsLike L p q) :
    Fused.Like L (intCompare cc r p) (intCompare cc s q) := by
  cases hp with
  | reg hp =>
    by_cases hcc : cc.isNative = true
    · simp only [intCompare, canonicalize, if_pos hcc]
      exact .compare rfl (.cons hr (.cons hp .nil))
    · simp only [intCompare, canonicalize, if_neg hcc]
      exact .compare rfl (.cons hp (.cons hr .nil))
  | imm k =>
    cases cc with
    | gt | le =>
      by_cases hk : k = Word.maxSigned
      · simp only [intCompare, canonicalize, Canonical.raised, if_pos hk]
        exact .constant _
      · simp only [intCompare, canonicalize, Canonical.raised, if_neg hk]
        exact .compare rfl (.cons hr .nil)
    | ugt | ule =>
      by_cases hk : k = -1#32
      · simp only [intCompare, canonicalize, Canonical.raised, if_pos hk]
        exact .constant _
      · simp only [intCompare, canonicalize, Canonical.raised, if_neg hk]
        exact .compare rfl (.cons hr .nil)
    | _ => exact .compare rfl (.cons hr .nil)

section

variable (h : Renames f f' E.rename uses defs) (hL : Reading uses L)

include h hL

theorem twin_compareRhs (hv : operand.values ⊆ uses) :
    Twin E L (fun p q L' => L.Extends L' ∧ RhsLike L' p q) (compareRhs f operand) (compareRhs f' operand) := by
  cases operand with
  | value v =>
    exact (h.read hL (hv (by simp [Ir.Operand.values]))).bind fun r s L1 ⟨h1, hr⟩ => .pure ⟨h1, .reg hr⟩
  | imm k => exact .pure ⟨.refl L, .imm k⟩

theorem twin_valueCompare (hv : lhs :: operand.values ⊆ uses) :
    Twin E L (fun p q L' => L.Extends L' ∧ p.Like L' q) (valueCompare f cc lhs operand)
      (valueCompare f' cc lhs operand) := by
  obtain ⟨hlhs, hrhs⟩ := List.cons_subset.mp hv
  refine (h.read hL hlhs).bind fun r s L1 ⟨h1, hr⟩ => ?_
  refine (twin_compareRhs h (hL.mono h1) hrhs).bind fun p q L2 ⟨h2, hp⟩ => ?_
  exact .pure ⟨h1.trans h2, like_intCompare (hr.mono h2) hp⟩

theorem twin_floatCompare {cc : FloatCond} (hlhs : lhs ∈ uses) (hrhs : rhs ∈ uses) :
    Twin E L (fun p q L' => L.Extends L' ∧ p.Like L' q) (floatCompare f cc lhs rhs) (floatCompare f' cc lhs rhs) := by
  refine .lift (h.operands lhs hlhs).same fun ty _ => .check fun _ => ?_
  refine .lift (h.operands lhs hlhs).precision fun prec _ => ?_
  refine (h.read hL hlhs).bind fun l l' L1 ⟨h1, hl⟩ => ?_
  refine (h.read (hL.mono h1) hrhs).bind fun r r' L2 ⟨h2, hr⟩ => ?_
  simp only [canonicalizeFloat]
  split
  · exact .pure ⟨h1.trans h2, .compare rfl (.cons hr (.cons (hl.mono h2) .nil))⟩
  · exact .pure ⟨h1.trans h2, .compare rfl (.cons (hl.mono h2) (.cons hr .nil))⟩

end

theorem alike_selectCc {cmp cmp' : Compare} {t t' e e' : Reg}
    (shape : cmp.map (fun _ => .virt 0) = cmp'.map fun _ => .virt 0) (regs : List.Forall₂ L.Readable cmp.regs cmp'.regs)
    (ht : L.Readable t t') (he : L.Readable e e') : L.Alike (.selectCc cmp a t e) (.selectCc cmp' b t' e') where
  shape := by simp only [Pseudo.shape, Pseudo.mapRegs, shape]
  uses := List.rel_append regs (.cons ht (.cons he .nil))

theorem twin_emitSet {p q : Fused} (h : Renames f f' E.rename uses [dst]) (hL : Reading uses L) (hp : p.Like L q) :
    Twin E L (Writes [dst]) (emitSet f dst p) (emitSet f' (E.rename dst) q) := by
  refine (h.named (by simp)).bind fun d d' L1 ⟨h1, hd⟩ => ?_
  have hp1 := hp.mono h1
  cases hp1 with
  | constant b => exact h.write (hL.mono h1) hd ⟨rfl, .nil⟩ rfl rfl
  | compare shape regs =>
    refine (Twin.temp .gpr).bind fun one one' _ h2 => (Twin.temp .gpr).bind fun zero zero' _ h3 => ?_
    refine .bind (.emitTemp (a := one) (b := one') ⟨rfl, .nil⟩ rfl rfl ?_) fun _ _ _ h4 => ?_
    · simp [h2, h3, Ledger.reserve]
    refine .bind (.emitTemp (a := zero) (b := zero') ⟨rfl, .nil⟩ rfl rfl ?_) fun _ _ L5 h5 => ?_
    · simp [h3, h4, Ledger.reserve, Ledger.hold]
    have h15 : L1.Extends L5 := by
      rw [h5, h4, h3, h2]
      exact ((Ledger.extends_reserve.trans Ledger.extends_reserve).trans Ledger.extends_hold).trans Ledger.extends_hold
    refine h.write ((hL.mono h1).mono h15) (h15.named hd) (alike_selectCc shape ?_ (.held ?_) (.held ?_)) rfl rfl
    · exact regs.imp fun _ _ h => h.mono h15
    · simp [h4, h5, Ledger.hold]
    · simp [h5, Ledger.hold]

theorem twin_emitSelect {p q : Fused} (h : Renames f f' E.rename uses [dst])
    (hL : Reading uses L) (hp : p.Like L q) (htrue : onTrue ∈ uses) (hfalse : onFalse ∈ uses) :
    Twin E L (Writes [dst]) (emitSelect f dst p onTrue onFalse) (emitSelect f' (E.rename dst) q onTrue onFalse) := by
  refine (h.named (by simp)).bind fun d d' L1 ⟨h1, hd⟩ => ?_
  refine (h.read (hL.mono h1) htrue).bind fun t t' L2 ⟨h2, ht⟩ => ?_
  refine (h.read ((hL.mono h1).mono h2) hfalse).bind fun e e' L3 ⟨h3, he⟩ => ?_
  have hL3 := ((hL.mono h1).mono h2).mono h3
  have hd3 := h3.named (h2.named hd)
  have hp3 := hp.mono ((h1.trans h2).trans h3)
  cases hp3 with
  | constant b =>
    cases b with
    | true => exact h.write hL3 hd3 ⟨rfl, .cons (ht.mono h3) .nil⟩ rfl rfl
    | false => exact h.write hL3 hd3 ⟨rfl, .cons he .nil⟩ rfl rfl
  | compare shape regs => exact h.write hL3 hd3 (alike_selectCc shape regs (ht.mono h3) he) rfl rfl

theorem twin_setCc (h : Renames f f' E.rename (lhs :: operand.values) [dst]) (hL : Reading (lhs :: operand.values) L) :
    Twin E L (Writes [dst]) (setCc f cc dst lhs operand) (setCc f' cc (E.rename dst) lhs operand) := by
  refine .lift (h.operands lhs (by simp)).same fun ty _ => .check fun _ => ?_
  exact (twin_valueCompare h hL (List.Subset.refl _)).bind fun p q L1 ⟨h1, hp⟩ => twin_emitSet h (hL.mono h1) hp

theorem twin_fsetCc {cc : FloatCond} (h : Renames f f' E.rename [lhs, rhs] [dst]) (hL : Reading [lhs, rhs] L) :
    Twin E L (Writes [dst]) (fsetCc f cc dst lhs rhs) (fsetCc f' cc (E.rename dst) lhs rhs) :=
  (twin_floatCompare h hL (by simp) (by simp)).bind fun p q L1 ⟨h1, hp⟩ => twin_emitSet h (hL.mono h1) hp

theorem twin_selectCc (h : Renames f f' E.rename (lhs :: operand.values ++ [onTrue, onFalse]) [dst])
    (hL : Reading (lhs :: operand.values ++ [onTrue, onFalse]) L) :
    Twin E L (Writes [dst]) (selectCc f cc dst lhs operand onTrue onFalse)
      (selectCc f' cc (E.rename dst) lhs operand onTrue onFalse) := by
  refine .lift (h.results dst (by simp)).same fun ty _ => .check fun _ => ?_
  refine (twin_valueCompare h hL (List.subset_append_left _ _)).bind fun p q L1 ⟨h1, hp⟩ => ?_
  exact twin_emitSelect h (hL.mono h1) hp (by simp) (by simp)

theorem twin_fselectCc {cc : FloatCond} (h : Renames f f' E.rename [lhs, rhs, onTrue, onFalse] [dst])
    (hL : Reading [lhs, rhs, onTrue, onFalse] L) :
    Twin E L (Writes [dst]) (fselectCc f cc dst lhs rhs onTrue onFalse)
      (fselectCc f' cc (E.rename dst) lhs rhs onTrue onFalse) := by
  refine .lift (h.results dst (by simp)).same fun ty _ => .check fun _ => ?_
  refine (twin_floatCompare h hL (by simp) (by simp)).bind fun p q L1 ⟨h1, hp⟩ => ?_
  exact twin_emitSelect h (hL.mono h1) hp (by simp) (by simp)

/-! ### Shifts of pairs -/

theorem twin_shifted (hr : L.Readable r s) (ha : L.Readable a b) :
    Twin E L (fun x y L' => L.Extends L' ∧ (x, y) ∈ L'.held) (shifted kind r (.reg a)) (shifted kind s (.reg b)) :=
  .fresh (fun _ => rfl) (fun _ => rfl) fun _ _ => ⟨rfl, .cons hr (.cons ha .nil)⟩

theorem twin_shiftedBy (hr : L.Readable r s) (k : Nat) :
    Twin E L (fun x y L' => L.Extends L' ∧ (x, y) ∈ L'.held) (shiftedBy kind r k) (shiftedBy kind s k) :=
  .fresh (fun _ => rfl) (fun _ => rfl) fun _ _ => ⟨rfl, .cons hr .nil⟩

theorem twin_unionOf (ha : (a, b) ∈ L.held) (hr : (r, s) ∈ L.held) :
    Twin E L (fun x y L' => L.Extends L' ∧ (x, y) ∈ L'.held) (unionOf a r) (unionOf b s) :=
  .fresh (fun _ => rfl) (fun _ => rfl) fun _ _ => ⟨rfl, .cons (.held ha) (.cons (.held hr) .nil)⟩

section Parts

variable {lo hi lo' hi' : Reg} (hlo : L.Readable lo lo') (hhi : L.Readable hi hi') {op : Ir.ShiftPartsOp}
include hlo hhi

/-- A shift by a constant makes new registers, unless it moves nothing. -/
theorem twin_constantParts {k : Nat} (hk : k ≠ 0) :
    Twin E L (fun p q L' => L.Extends L' ∧ (p.1, q.1) ∈ L'.held ∧ (p.2, q.2) ∈ L'.held) (constantParts op lo hi k)
      (constantParts op lo' hi' k) := by
  unfold constantParts
  rw [if_neg hk, if_neg hk]
  by_cases hlt : k < 32
  · rw [if_pos hlt, if_pos hlt]
    cases op with
    | shl =>
      refine (twin_shiftedBy hhi k).bind fun _ _ L1 ⟨h1, hupper⟩ => ?_
      refine (twin_shiftedBy (hlo.mono h1) (32 - k)).bind fun _ _ L2 ⟨h2, hcarry⟩ => ?_
      refine (twin_unionOf (h2.held hupper) hcarry).bind fun _ _ L3 ⟨h3, hnewHi⟩ => ?_
      have h13 := (h1.trans h2).trans h3
      refine (twin_shiftedBy (hlo.mono h13) k).bind fun _ _ L4 ⟨h4, hnewLo⟩ => ?_
      exact .pure ⟨h13.trans h4, hnewLo, h4.held hnewHi⟩
    | lshr | ashr =>
      refine (twin_shiftedBy hlo k).bind fun _ _ L1 ⟨h1, hlower⟩ => ?_
      refine (twin_shiftedBy (hhi.mono h1) (32 - k)).bind fun _ _ L2 ⟨h2, hcarry⟩ => ?_
      refine (twin_unionOf (h2.held hlower) hcarry).bind fun _ _ L3 ⟨h3, hnewLo⟩ => ?_
      have h13 := (h1.trans h2).trans h3
      refine (twin_shiftedBy (hhi.mono h13) k).bind fun _ _ L4 ⟨h4, hnewHi⟩ => ?_
      exact .pure ⟨h13.trans h4, h4.held hnewLo, hnewHi⟩
  · rw [if_neg hlt, if_neg hlt]
    cases op with
    | shl =>
      refine (twin_shiftedBy hlo (k - 32)).bind fun _ _ L1 ⟨h1, hnewHi⟩ => ?_
      refine (twin_constant 0#32).bind fun _ _ L2 ⟨h2, hzero⟩ => ?_
      exact .pure ⟨h1.trans h2, hzero, h2.held hnewHi⟩
    | lshr =>
      refine (twin_shiftedBy hhi (k - 32)).bind fun _ _ L1 ⟨h1, hnewLo⟩ => ?_
      refine (twin_constant 0#32).bind fun _ _ L2 ⟨h2, hzero⟩ => ?_
      exact .pure ⟨h1.trans h2, h2.held hnewLo, hzero⟩
    | ashr =>
      refine (twin_shiftedBy hhi (k - 32)).bind fun _ _ L1 ⟨h1, hnewLo⟩ => ?_
      refine (twin_shiftedBy (hhi.mono h1) 31).bind fun _ _ L2 ⟨h2, hnewHi⟩ => ?_
      exact .pure ⟨h1.trans h2, h2.held hnewLo, hnewHi⟩

structure VariableParts.Held (L : Ledger) (p q : VariableParts) : Prop where
  loSmall : (p.small.1, q.small.1) ∈ L.held
  hiSmall : (p.small.2, q.small.2) ∈ L.held
  loBig : (p.big.1, q.big.1) ∈ L.held
  hiBig : (p.big.2, q.big.2) ∈ L.held
  amount : (p.amount, q.amount) ∈ L.held

theorem twin_variableParts (ha : L.Readable a b) :
    Twin E L (fun p q L' => L.Extends L' ∧ p.Held L' q) (variableParts op lo hi a) (variableParts op lo' hi' b) := by
  unfold variableParts
  refine .freshThen (fun _ => rfl) (fun _ => rfl) (fun _ _ => ?_) fun n n' L1 h1 hn => ?_
  · exact ⟨rfl, .cons ha .nil⟩
  refine .freshThen (fun _ => rfl) (fun _ => rfl) (fun _ _ => ?_) fun m m' L2 h2 hm => ?_
  · exact ⟨rfl, .cons (.held hn) .nil⟩
  refine .freshThen (fun _ => rfl) (fun _ => rfl) (fun _ _ => ?_) fun i i' L3 h3 hi => ?_
  · exact ⟨rfl, .cons (.held hm) .nil⟩
  have h13 := (h1.trans h2).trans h3
  have hn3 := h3.held (h2.held hn)
  cases op with
  | shl =>
    refine (twin_shifted (hhi.mono h13) (.held hn3)).bind fun _ _ L4 ⟨h4, hupper⟩ => ?_
    refine (twin_shiftedBy (hlo.mono (h13.trans h4)) 1).bind fun _ _ L5 ⟨h5, hhalf⟩ => ?_
    refine (twin_shifted (.held hhalf) (.held (h5.held (h4.held hi)))).bind fun _ _ L6 ⟨h6, hcarry⟩ => ?_
    refine (twin_unionOf (h6.held (h5.held hupper)) hcarry).bind fun _ _ L7 ⟨h7, hhiSmall⟩ => ?_
    have h37 := ((h4.trans h5).trans h6).trans h7
    have hlo7 := hlo.mono (h13.trans h37)
    have hn7 := h37.held hn3
    refine (twin_shifted hlo7 (.held hn7)).bind fun _ _ L8 ⟨h8, hloSmall⟩ => ?_
    refine (twin_shifted (hlo7.mono h8) (.held (h8.held hn7))).bind fun _ _ L9 ⟨h9, hhiBig⟩ => ?_
    refine (twin_constant 0#32).bind fun _ _ L10 ⟨h10, hloBig⟩ => ?_
    have h810 := h9.trans h10
    refine .pure ⟨(h13.trans h37).trans (h8.trans h810), ?_⟩
    exact ⟨h810.held hloSmall, h810.held (h8.held hhiSmall), hloBig, h10.held hhiBig, h810.held (h8.held hn7)⟩
  | lshr | ashr =>
    refine (twin_shifted (hlo.mono h13) (.held hn3)).bind fun _ _ L4 ⟨h4, hlower⟩ => ?_
    refine (twin_shiftedBy (hhi.mono (h13.trans h4)) 1).bind fun _ _ L5 ⟨h5, hhalf⟩ => ?_
    refine (twin_shifted (.held hhalf) (.held (h5.held (h4.held hi)))).bind fun _ _ L6 ⟨h6, hcarry⟩ => ?_
    refine (twin_unionOf (h6.held (h5.held hlower)) hcarry).bind fun _ _ L7 ⟨h7, hloSmall⟩ => ?_
    have h37 := ((h4.trans h5).trans h6).trans h7
    have hhi7 := hhi.mono (h13.trans h37)
    have hn7 := h37.held hn3
    refine (twin_shifted hhi7 (.held hn7)).bind fun _ _ L8 ⟨h8, hhiSmall⟩ => ?_
    refine (twin_shifted (hhi7.mono h8) (.held (h8.held hn7))).bind fun _ _ L9 ⟨h9, hloBig⟩ => ?_
    have h89 := h8.trans h9
    extract_lets jp jp'
    -- the sign or zero, in a new register either way
    have hjp (x y : Reg) (L10 : Ledger) (h10 : L9.Extends L10) (hhiBig : (x, y) ∈ L10.held) :
        Twin E L10 (fun p q L' => L.Extends L' ∧ p.Held L' q) (jp x) (jp' y) := by
      refine .pure ⟨(h13.trans h37).trans (h89.trans h10), ?_⟩
      exact ⟨h10.held (h89.held hloSmall), h10.held (h9.held hhiSmall), h10.held hloBig, hhiBig,
        h10.held (h89.held hn7)⟩
    split
    · exact (twin_shiftedBy (hhi7.mono h89) 31).bind fun x y L10 ⟨h10, hhiBig⟩ => hjp x y L10 h10 hhiBig
    · exact (twin_constant 0#32).bind fun x y L10 ⟨h10, hhiBig⟩ => hjp x y L10 h10 hhiBig

end Parts

section Pair

variable {a' b' : Reg} {m' n' : Pseudo} (h : Renames f f' E.rename uses [u, v]) (huv : u ≠ v)
include h huv

theorem Renames.writeSecond (hL : L.operands ⊆ uses) (hu : L.results = [u]) (hv : (v, E.rename v, a, b) ∈ L.named)
    (hmn : L.Alike m n) (hm : m.defs = [a]) (hn : n.defs = [b]) : Twin E L (Writes [u, v]) (emit m) (emit n) := by
  have hdistinct : E.rename u ≠ E.rename v := by simpa using h.distinct
  refine (h.writeOne (by simp) hL (by simp [hu, huv, hdistinct]) hv hmn hm hn).mono ?_
  rintro _ _ _ rfl
  simp [Writes, Ledger.write, hu]

/-- Two results are written. What the second is made of is no operand that the first may be. -/
theorem Renames.writePair (hL : Reading uses L) (hu : (u, E.rename u, a, b) ∈ L.named)
    (hv : (v, E.rename v, a', b') ∈ L.named) (hmn : L.Alike m n) (hm : m.defs = [a]) (hn : n.defs = [b])
    (hmn' : (L.write u).Alike m' n') (hm' : m'.defs = [a']) (hn' : n'.defs = [b']) :
    Twin E L (Writes [u, v]) (do emit m; emit m') (do emit n; emit n') := by
  refine (h.writeOne (by simp) (hL.operands ▸ List.Subset.refl _) (by simp [hL.results]) hu hmn hm hn).bind ?_
  rintro _ _ _ rfl
  refine h.writeSecond huv ?_ (by simp [Ledger.write, hL.results]) hv hmn' hm' hn'
  rw [Ledger.write, hL.operands]
  exact List.filter_subset_self _

end Pair

/-- A pair that is not shifted is moved low word first, which must not be where the high word is read from. -/
theorem twin_shiftParts {op : Ir.ShiftPartsOp} {dstLo dstHi lo hi : Ir.Value}
    (h : Renames f f' E.rename (lo :: hi :: operand.values) [dstLo, dstHi]) (hne : dstLo ≠ dstHi)
    (hmove : ∀ k, operand = .imm k → k.toNat % 64 = 0 → dstLo = hi → lo = hi)
    (hL : Reading (lo :: hi :: operand.values) L) :
    Twin E L (Writes [dstLo, dstHi]) (shiftParts f op dstLo dstHi lo hi operand)
      (shiftParts f' op (E.rename dstLo) (E.rename dstHi) lo hi operand) := by
  refine .check fun _ => (h.operandReg (v := lo) (by simp)).bind fun l l' L1 ⟨h1, hl⟩ => ?_
  refine (h.operandReg (v := hi) (by simp)).bind fun r r' L2 ⟨h2, hr⟩ => ?_
  refine (h.named (v := dstLo) (by simp)).bind fun dl dl' L3 ⟨h3, hdl⟩ => ?_
  refine (h.named (v := dstHi) (by simp)).bind fun dh dh' L4 ⟨h4, hdh⟩ => ?_
  have h24 := h3.trans h4
  have hL4 := (((hL.mono h1).mono h2).mono h3).mono h4
  have hlo : L4.Readable l l' := .operand (v := lo) (by simp [hL4.operands]) (h24.named (h2.named hl))
  have hhi : L4.Readable r r' := .operand (v := hi) (by simp [hL4.operands]) (h24.named hr)
  cases operand with
  | imm k =>
    by_cases hk : k.toNat % 64 = 0
    · have hmoved (x y : Reg) : constantParts op x y 0 = pure (x, y) := rfl
      simp only [hk, hmoved, pure_bind]
      by_cases hdst : dstLo = hi
      · -- all three are one value, and its copy to itself changes nothing
        obtain rfl := hmove k rfl hk hdst
        obtain rfl := hdst
        refine .bind (.emitSelf (v := dstLo) (h4.named hdl) (by simp [hL4.operands]) (h24.named (h2.named hl)) ?_ ?_) ?_
        · rintro u hu rfl
          exact h.fresh dstLo (by simp) (hL4.operands ▸ hu)
        · simp [hL4.results]
        · rintro _ _ _ rfl
          refine h.writeSecond hne ?_ (by simp [Ledger.keep, hL4.results]) hdh ⟨rfl, .cons ?_ .nil⟩ rfl rfl
          · rw [Ledger.keep, hL4.operands]
            exact List.Subset.refl _
          · exact .operand (v := dstLo) (by simp [Ledger.keep, hL4.operands]) (h24.named hr)
      · refine h.writePair hne hL4 (h4.named hdl) hdh ⟨rfl, .cons hlo .nil⟩ rfl rfl ⟨rfl, .cons ?_ .nil⟩ rfl rfl
        exact .operand (v := hi) (by simp [Ledger.write, hL4.operands, Ne.symm hdst]) (h24.named hr)
    · refine (twin_constantParts hlo hhi hk).bind ?_
      rintro p q L5 ⟨h5, hp1, hp2⟩
      exact h.writePair hne (hL4.mono h5) (h5.named (h4.named hdl)) (h5.named hdh) ⟨rfl, .cons (.held hp1) .nil⟩ rfl rfl
        ⟨rfl, .cons (.held hp2) .nil⟩ rfl rfl
  | value v =>
    refine (h.read hL4 (by simp [Ir.Operand.values])).bind ?_
    rintro n n' L5 ⟨h5, hn⟩
    refine (twin_variableParts (hlo.mono h5) (hhi.mono h5) hn).bind ?_
    rintro p q L6 ⟨h6, hp⟩
    have h46 := h5.trans h6
    simp only [intCompare, canonicalize]
    refine h.writePair hne (hL4.mono h46) (h46.named (h4.named hdl)) (h46.named hdh)
      (alike_selectCc rfl ?_ ?_ ?_) rfl rfl (alike_selectCc rfl ?_ ?_ ?_) rfl rfl
    · exact .cons (.held hp.amount) .nil
    · exact .held hp.loBig
    · exact .held hp.loSmall
    · exact .cons (.held hp.amount) .nil
    · exact .held hp.hiBig
    · exact .held hp.hiSmall

/-! ### Memory and addresses -/

structure MemLike (L : Ledger) (p q : MemBase) : Prop where
  shape : p.map (fun _ => .virt 0) = q.map fun _ => .virt 0
  regs : List.Forall₂ L.Readable p.regs q.regs

structure FloatMemLike (L : Ledger) (p q : FMemBase) : Prop where
  shape : p.map (fun _ => .virt 0) = q.map fun _ => .virt 0
  regs : List.Forall₂ L.Readable p.regs q.regs

/-- Operations that write no register of a value. -/
theorem twin_effect (hmn : L.Alike m n) (hm : m.defs = []) (hn : n.defs = []) :
    Twin E L (Writes []) (emit m) (emit n) :=
  (Twin.emitPhys hmn (hn.trans hm.symm) (by simp [hm])).mono fun _ _ _ _ => List.nil_subset _

section Address

variable {addr : Ir.Address} (h : Renames f f' E.rename uses defs) (hL : Reading uses L)
  (hv : addr.values ⊆ uses)
include h hL hv

theorem twin_memOperand : Twin E L (fun p q L' => L.Extends L' ∧ MemLike L' p.1 q.1 ∧ p.2 = q.2) (memOperand f addr)
    (memOperand f' addr) := by
  obtain ⟨base, offset⟩ := addr
  cases base with
  | value v =>
    refine (h.read hL (hv (by simp [Ir.Address.values]))).bind fun r s L1 ⟨h1, hr⟩ => ?_
    exact .pure ⟨h1, ⟨rfl, .cons hr .nil⟩, rfl⟩
  | slot s => exact .lift (h.slotIndex s) fun i _ => .pure ⟨.refl L, ⟨rfl, .nil⟩, rfl⟩
  | global s => exact .pure ⟨.refl L, ⟨rfl, .nil⟩, rfl⟩

theorem twin_floatMemOperand : Twin E L (fun p q L' => L.Extends L' ∧ FloatMemLike L' p q) (floatMemOperand f addr)
    (floatMemOperand f' addr) := by
  obtain ⟨base, offset⟩ := addr
  cases base with
  | value v =>
    refine (Twin.temp .gprLow).bind fun t t' L1 h1 => ?_
    have hL1 : L.Extends L1 := h1 ▸ Ledger.extends_reserve
    refine (h.read (hL.mono hL1) (hv (by simp [Ir.Address.values]))).bind fun r s L2 ⟨h2, hr⟩ => ?_
    have ht : (t, t') ∈ L2.temps := h2.temps (by simp [h1, Ledger.reserve])
    extract_lets jp jp'
    have hjp (L3 : Ledger) (h3 : L3 = L2.hold t t') :
        Twin E L3 (fun p q L' => L.Extends L' ∧ FloatMemLike L' p q) (jp ()) (jp' ()) := by
      subst h3
      exact .pure ⟨(hL1.trans h2).trans Ledger.extends_hold, ⟨rfl, .cons (.held (by simp [Ledger.hold])) .nil⟩⟩
    split
    · exact .bind (.emitTemp ⟨rfl, .cons hr .nil⟩ rfl rfl ht) fun _ _ => hjp
    · exact .bind (.emitTemp ⟨rfl, .cons hr .nil⟩ rfl rfl ht) fun _ _ => hjp
  | slot s =>
    refine (Twin.temp .gprLow).bind fun t t' L1 h1 => .lift (h.slotIndex s) fun i _ => ?_
    have ht : (t, t') ∈ L1.temps := by simp [h1, Ledger.reserve]
    have hL1 : L.Extends L1 := h1 ▸ Ledger.extends_reserve
    refine .bind (.emitTemp ⟨rfl, .nil⟩ rfl rfl ht) fun _ _ L2 h2 => ?_
    subst h2
    exact .pure ⟨hL1.trans Ledger.extends_hold, ⟨rfl, .cons (.held (by simp [Ledger.hold])) .nil⟩⟩
  | global s => exact .pure ⟨.refl L, ⟨rfl, .nil⟩⟩

end Address

theorem twin_load {ext : Ir.Extension} (h : Renames f f' E.rename addr.values [dst]) (hL : Reading addr.values L) :
    Twin E L (Writes [dst]) (load f dst ty ext addr) (load f' (E.rename dst) ty ext addr) := by
  refine .check fun _ => (h.named (by simp)).bind fun d d' L1 ⟨h1, hd⟩ => ?_
  split
  · refine .check fun prec => (twin_floatMemOperand h (hL.mono h1) (List.Subset.refl _)).bind ?_
    rintro p q L2 ⟨h2, hp⟩
    refine h.write ((hL.mono h1).mono h2) (h2.named hd) ⟨?_, hp.regs⟩ rfl rfl
    simp only [Pseudo.shape, Pseudo.mapRegs, hp.shape]
  · refine (twin_memOperand h (hL.mono h1) (List.Subset.refl _)).bind ?_
    rintro p q L2 ⟨h2, hp, hoffset⟩
    refine h.write ((hL.mono h1).mono h2) (h2.named hd) ⟨?_, hp.regs⟩ rfl rfl
    simp only [Pseudo.shape, Pseudo.mapRegs, hp.shape, hoffset]

theorem twin_store (h : Renames f f' E.rename (src :: addr.values) []) (hL : Reading (src :: addr.values) L) :
    Twin E L (Writes []) (store f src ty addr) (store f' src ty addr) := by
  refine .check fun _ => (h.read hL (by simp)).bind fun s s' L1 ⟨h1, hs⟩ => ?_
  split
  · refine .check fun prec => (twin_floatMemOperand h (hL.mono h1) (by simp)).bind ?_
    rintro p q L2 ⟨h2, hp⟩
    refine twin_effect ⟨?_, .cons (hs.mono h2) hp.regs⟩ rfl rfl
    simp only [Pseudo.shape, Pseudo.mapRegs, hp.shape]
  · refine (twin_memOperand h (hL.mono h1) (by simp)).bind ?_
    rintro p q L2 ⟨h2, hp, hoffset⟩
    refine twin_effect ⟨?_, .cons (hs.mono h2) hp.regs⟩ rfl rfl
    simp only [Pseudo.shape, Pseudo.mapRegs, hp.shape, hoffset]

section

variable (h : Renames f f' E.rename [] [dst]) (hL : Reading [] L)

include h hL

theorem twin_const {value : Word} : Twin E L (Writes [dst]) (const f dst value) (const f' (E.rename dst) value) := by
  refine .lift (h.results dst (by simp)).same fun ty _ => .check fun _ => ?_
  exact (h.named (by simp)).bind fun d d' L1 ⟨h1, hd⟩ => h.write (hL.mono h1) hd ⟨rfl, .nil⟩ rfl rfl

theorem twin_fconst {value : Double} :
    Twin E L (Writes [dst]) (fconst f dst value) (fconst f' (E.rename dst) value) := by
  refine .lift (h.results dst (by simp)).same fun ty _ => .check fun _ => .check fun _ => ?_
  refine .lift (h.results dst (by simp)).precision fun prec _ => ?_
  refine Twin.addConstant
    (k := fun i => do
      let addr ← temp .gprLow
      emit (.loadAddr addr (.pool i))
      emit (.fload (← reg f dst) prec (.reg addr)))
    (l := fun i => do
      let addr ← temp .gprLow
      emit (.loadAddr addr (.pool i))
      emit (.fload (← reg f' (E.rename dst)) prec (.reg addr))) (value.bytesIn prec) fun i => ?_
  refine .freshThen (fun _ => rfl) (fun _ => rfl) (fun _ _ => ?_) fun t t' L1 h1 ht => ?_
  · exact ⟨rfl, .nil⟩
  refine (h.named (by simp)).bind fun d d' L2 ⟨h2, hd⟩ => ?_
  exact h.write ((hL.mono h1).mono h2) hd ⟨rfl, .cons (.held (h2.held ht)) .nil⟩ rfl rfl

theorem twin_address {op : Operation} {target : AddrTarget} :
    Twin E L (Writes [dst]) (address f op dst target) (address f' op (E.rename dst) target) := by
  refine .lift (h.results dst (by simp)).same fun ty _ => .check fun _ => ?_
  exact (h.named (by simp)).bind fun d d' L1 ⟨h1, hd⟩ => h.write (hL.mono h1) hd ⟨rfl, .nil⟩ rfl rfl

theorem twin_slotAddr {slot : Ir.SlotId} :
    Twin E L (Writes [dst]) (slotAddr f dst slot) (slotAddr f' (E.rename dst) slot) := by
  refine .lift (h.results dst (by simp)).same fun ty _ => .check fun _ => .lift (h.slotIndex slot) fun i _ => ?_
  exact (h.named (by simp)).bind fun d d' L1 ⟨h1, hd⟩ => h.write (hL.mono h1) hd ⟨rfl, .nil⟩ rfl rfl

theorem twin_frameAddr : Twin E L (Writes [dst]) (frameAddr f dst depth) (frameAddr f' (E.rename dst) depth) := by
  refine .lift (h.results dst (by simp)).same fun ty _ => .check fun _ => ?_
  extract_lets jp jp'
  have hjp : Twin E L (Writes [dst]) (jp ()) (jp' ()) := by
    refine (Twin.withPlan _).bind ?_
    rintro _ _ _ ⟨-, rfl⟩
    refine (h.named (by simp)).bind fun d d' L1 ⟨h1, hd⟩ => ?_
    exact h.write (hL.mono h1) hd ⟨rfl, .cons (.phys frameBase) .nil⟩ rfl rfl
  split
  · exact .check fun _ => hjp
  · exact hjp

theorem twin_returnAddr : Twin E L (Writes [dst]) (returnAddr f dst depth) (returnAddr f' (E.rename dst) depth) := by
  refine .lift (h.results dst (by simp)).same fun ty _ => .check fun _ => ?_
  extract_lets jp jp'
  have hjp : Twin E L (Writes [dst]) (jp ()) (jp' ()) := by
    refine (Twin.withPlan _).bind ?_
    rintro i _ _ ⟨rfl, rfl⟩
    exact (h.named (by simp)).bind fun d d' L1 ⟨h1, hd⟩ => h.write (hL.mono h1) hd ⟨rfl, .nil⟩ rfl rfl
  split
  · exact .check fun _ => hjp
  · exact hjp

end

theorem twin_dynAlloca {size : Ir.Value} {align : Nat} (h : Renames f f' E.rename [size] [dst])
    (hL : Reading [size] L) :
    Twin E L (Writes [dst]) (dynAlloca f dst size align) (dynAlloca f' (E.rename dst) size align) := by
  refine .lift (h.results dst (by simp)).same fun ty _ => .check fun _ => (Twin.withPlan _).bind ?_
  rintro _ _ _ ⟨-, rfl⟩
  refine (h.named (by simp)).bind fun d d' L1 ⟨h1, hd⟩ => ?_
  refine (h.read (hL.mono h1) (by simp)).bind fun s s' L2 ⟨h2, hs⟩ => ?_
  exact h.write ((hL.mono h1).mono h2) (h2.named hd) ⟨rfl, .cons hs .nil⟩ rfl rfl

theorem twin_vaStart {list : Ir.Value} (h : Renames f f' E.rename [list] []) (hL : Reading [list] L) :
    Twin E L (Writes []) (vaStart f list) (vaStart f' list) := by
  refine .lift (h.operands list (by simp)).same fun ty _ => .check fun _ => Twin.get.bind ?_
  rintro c d _ ⟨hplan, rfl⟩
  refine .lift (fun i hi => ?_) fun i _ => ?_
  · rw [hplan]
    exact orFail_eq_ok.mpr (orFail_eq_ok.mp hi)
  refine .freshThen (fun _ => rfl) (fun _ => rfl) (fun _ _ => ?_) fun t t' L1 h1 ht => ?_
  · exact ⟨rfl, .nil⟩
  refine (h.read (hL.mono h1) (by simp)).bind fun r s L2 ⟨h2, hr⟩ => ?_
  exact twin_effect ⟨rfl, .cons (.held (h2.held ht)) (.cons hr .nil)⟩ rfl rfl

/-! ### Calls -/

theorem typesOf_same {us vs : List Ir.Value} (h : List.Forall₂ (SameType f f') us vs) (types : List Ir.Ty)
    (hu : typesOf f us = .ok types) : typesOf f' vs = .ok types := by
  induction h generalizing types with
  | nil => exact hu
  | cons hv _ ih =>
    rw [typesOf, List.mapM_cons] at hu ⊢
    obtain ⟨ty, hty, hu⟩ := bind_eq_ok.mp hu
    obtain ⟨rest, hrest, hu⟩ := bind_eq_ok.mp hu
    exact bind_eq_ok.mpr ⟨ty, hv.same ty hty, bind_eq_ok.mpr ⟨rest, ih rest hrest, hu⟩⟩

theorem length_assignReturns {types : List Ir.Ty} (h : assignReturns types = .ok regs) :
    regs.length = types.length := by
  unfold assignReturns at h
  split at h
  · cases h
    rfl
  · cases h
    rfl
  · cases h
    rfl
  · split at h
    · next hlen =>
      cases h
      simp only [Bool.and_eq_true, decide_eq_true_eq] at hlen
      rw [List.length_take]
      omega
    · cases h

def ArgumentLike (L : Ledger) (p q : Register × Reg) : Prop := p.1 = q.1 ∧ L.Readable p.2 q.2

theorem twin_argument {arg : Ir.Value} {loc : ArgLoc} (h : Renames f f' E.rename uses defs)
    (hL : Reading uses L) (harg : arg ∈ uses) :
    Twin E L (fun o p L' => L.Extends L' ∧ Option.Rel (ArgumentLike L') o p) (argument f arg ty loc)
      (argument f' arg ty loc) := by
  refine (h.read hL harg).bind fun s s' L1 ⟨h1, hs⟩ => ?_
  cases loc with
  | reg r => exact .pure ⟨h1, .some ⟨rfl, hs⟩⟩
  | stack offset size =>
    dsimp only
    split
    · refine .check fun prec => .freshThen (fun _ => rfl) (fun _ => rfl) (fun _ _ => ?_) fun t t' L2 h2 ht => ?_
      · exact ⟨rfl, .nil⟩
      refine .bind (.emitPhys ⟨rfl, .cons (hs.mono h2) (.cons (.held ht) .nil)⟩ rfl nofun) ?_
      rintro _ _ _ rfl
      exact .pure ⟨h1.trans h2, .none⟩
    · refine .bind (.emitPhys ⟨rfl, .cons hs .nil⟩ rfl nofun) ?_
      rintro _ _ _ rfl
      exact .pure ⟨h1, .none⟩

inductive TargetLike (L : Ledger) : CallTarget → CallTarget → Prop
  | symbol (name : String) : TargetLike L (.symbol name) (.symbol name)
  | reg {r s : Reg} (h : L.Readable r s) : TargetLike L (.reg r) (.reg s)

theorem TargetLike.mono {p q : CallTarget} (h : TargetLike L p q) (hL : L.Extends L') : TargetLike L' p q := by
  cases h with
  | symbol name => exact .symbol name
  | reg h => exact .reg (h.mono hL)

theorem twin_callTarget (h : Renames f f' E.rename uses defs) (hL : Reading uses L) (hv : callee.values ⊆ uses) :
    Twin E L (fun p q L' => L.Extends L' ∧ TargetLike L' p q) (callTarget f callee) (callTarget f' callee) := by
  cases callee with
  | direct name => exact .pure ⟨.refl L, .symbol name⟩
  | indirect v =>
    exact (h.read hL (hv (by simp [Ir.Callee.values]))).bind fun r s L1 ⟨h1, hr⟩ => .pure ⟨h1, .reg hr⟩

theorem alike_call {p q : CallTarget} (h : TargetLike L p q) (args clobbers : List Register) :
    L.Alike (.call p args clobbers) (.call q args clobbers) := by
  have hargs : List.Forall₂ L.Readable (args.map .phys) (args.map .phys) := by
    induction args with
    | nil => exact .nil
    | cons r args ih => exact .cons (.phys r) ih
  cases h with
  | symbol name => exact ⟨rfl, hargs⟩
  | reg h => exact ⟨rfl, List.rel_append hargs (.cons h .nil)⟩

theorem twin_result {r : Register} (h : Renames f f' E.rename uses defs) (hv : v ∈ defs) (hL : L.operands ⊆ uses)
    (hnew : ∀ u ∈ L.results, u ≠ v ∧ E.rename u ≠ E.rename v) :
    Twin E L (fun _ _ L' => L'.operands ⊆ uses ∧ L'.results = v :: L.results)
      (do emit (.copy (← reg f v) (.phys r))) (do emit (.copy (← reg f' (E.rename v)) (.phys r))) := by
  refine (h.named hv).bind fun d d' L1 ⟨h1, hd⟩ => ?_
  refine .mono (h.writeOne hv (h1.operands ▸ hL) (h1.results ▸ hnew) hd ⟨rfl, .cons (.phys r) .nil⟩ rfl rfl) ?_
  rintro _ _ _ rfl
  refine ⟨fun u hu => hL ?_, by rw [Ledger.write, h1.results]⟩
  rw [← h1.operands]
  exact (List.mem_filter.mp hu).1

/-- Results are taken from their registers one after another. -/
theorem twin_results (h : Renames f f' E.rename uses defs) (hresults : results ⊆ defs) (hnodup : results.Nodup)
    (hdistinct : (results.map E.rename).Nodup) (hlen : regs.length = results.length) (hL : L.operands ⊆ uses)
    (hnew : ∀ u ∈ L.results, u ∉ results ∧ E.rename u ∉ results.map E.rename) :
    Twin E L (fun _ _ L' => results ++ L.results ⊆ L'.results)
      ((results.zip regs).forM fun p => do emit (.copy (← reg f p.1) (.phys p.2)))
      (((results.map E.rename).zip regs).forM fun p => do emit (.copy (← reg f' p.1) (.phys p.2))) := by
  induction results generalizing regs L with
  | nil => exact .pure (List.Subset.refl _)
  | cons v results ih =>
    obtain _ | ⟨r, regs⟩ := regs
    · cases hlen
    obtain ⟨hv, hresults⟩ := List.cons_subset.mp hresults
    obtain ⟨hvout, hnodup⟩ := List.nodup_cons.mp hnodup
    obtain ⟨hgout, hdistinct⟩ := List.nodup_cons.mp hdistinct
    have hother (u : Ir.Value) (hu : u ∈ L.results) : u ≠ v ∧ E.rename u ≠ E.rename v := by
      obtain ⟨hout, hgout⟩ := hnew u hu
      rw [List.map_cons, List.mem_cons, not_or] at hgout
      exact ⟨List.ne_of_not_mem_cons hout, hgout.1⟩
    refine (twin_result h hv hL hother).bind fun _ _ L1 ⟨hL1, hwritten⟩ => ?_
    refine (ih hresults hnodup hdistinct (Nat.succ.inj hlen) hL1 fun u hu => ?_).mono fun _ _ L' hsub => ?_
    · rw [hwritten] at hu
      rcases List.mem_cons.mp hu with rfl | hu
      · exact ⟨hvout, hgout⟩
      · obtain ⟨hout, hgout⟩ := hnew u hu
        exact ⟨fun hmem => hout (.tail v hmem), fun hmem => hgout (.tail _ hmem)⟩
    · rw [hwritten] at hsub
      refine fun u hu => hsub ?_
      simp only [List.cons_append, List.mem_cons, List.mem_append] at hu ⊢
      tauto

theorem twin_call {args : List Ir.Value} {numFixed : Option Nat}
    (h : Renames f f' E.rename (args ++ callee.values) results) (hnodup : results.Nodup)
    (hL : Reading (args ++ callee.values) L) :
    Twin E L (Writes results) (call f callee args numFixed results)
      (call f' callee args numFixed (results.map E.rename)) := by
  have hargs : List.Forall₂ (SameType f f') args args :=
    List.forall₂_same.mpr fun v hv => h.operands v (List.mem_append_left _ hv)
  have hresults : List.Forall₂ (SameType f f') results (results.map E.rename) :=
    List.forall₂_map_right_iff.mpr (List.forall₂_same.mpr h.results)
  refine .check fun _ => .lift (typesOf_same hargs) fun types _ => .check fun plan => .check fun size => ?_
  refine (Twin.withPlan _).bind ?_
  rintro _ _ _ ⟨-, rfl⟩
  refine (twin_callTarget h hL (List.subset_append_right _ _)).bind ?_
  rintro p q L1 ⟨h1, hp⟩
  refine .bind (.emitPhys ⟨rfl, .nil⟩ rfl (by simp [Pseudo.defs, Pseudo.dst?])) ?_
  rintro _ _ _ rfl
  refine .bind (.filterMapM (P := ArgumentLike) ?_ ?_) ?_
  · rintro L2 L3 x y h23 ⟨hreg, hread⟩
    exact ⟨hreg, hread.mono h23⟩
  · rintro ⟨arg, ty, loc⟩ hmem L2 h2
    exact twin_argument h ((hL.mono h1).mono h2) (List.mem_append_left _ (List.of_mem_zip hmem).1)
  rintro xs ys L2 ⟨h2, hxs⟩
  have hregs : ys.map (·.1) = xs.map (·.1) := by
    induction hxs with
    | nil => rfl
    | cons hx _ ih => rw [List.map_cons, List.map_cons, hx.1, ih]
  refine .bind (.forM hxs ?_) ?_
  · rintro ⟨r, x⟩ ⟨_, y⟩ ⟨rfl, hxy⟩
    exact .emitPhys ⟨rfl, .cons hxy .nil⟩ rfl (by simp [Pseudo.defs, Pseudo.dst?])
  rintro _ _ _ rfl
  rw [hregs]
  refine .bind (.emitPhys (alike_call (hp.mono h2) _ _) rfl (by simp [Pseudo.defs])) ?_
  rintro _ _ _ rfl
  refine .bind (.emitPhys ⟨rfl, .nil⟩ rfl (by simp [Pseudo.defs, Pseudo.dst?])) ?_
  rintro _ _ _ rfl
  refine .lift (typesOf_same hresults) fun types' htypes => .lift (fun _ => id) fun regs hassigned => ?_
  have hL2 := (hL.mono h1).mono h2
  have hlen : regs.length = results.length := by
    rw [length_assignReturns hassigned, (Stream.mapM_ok htypes).1]
  refine (twin_results h (List.Subset.refl _) hnodup h.distinct hlen (hL2.operands ▸ List.Subset.refl _) ?_).mono ?_
  · simp [hL2.results]
  · rintro _ _ L' hsub
    rw [hL2.results, List.append_nil] at hsub
    exact hsub

theorem twin_fbinary {op : Ir.FBinOp} (h : Renames f f' E.rename [lhs, rhs] [dst]) (hL : Reading [lhs, rhs] L) :
    Twin E L (Writes [dst]) (fbinary f op dst lhs rhs) (fbinary f' op (E.rename dst) lhs rhs) := by
  refine .lift (h.results dst (by simp)).same fun ty _ => .check fun act => ?_
  split
  · exact twin_call h (by simp) hL
  · extract_lets jp jp'
    have hjp (op : FAluOp) : Twin E L (Writes [dst]) (jp op) (jp' op) := by
      refine .lift (h.results dst (by simp)).precision fun prec _ => ?_
      refine (h.named (by simp)).bind fun d d' L1 ⟨h1, hd⟩ => ?_
      refine (h.read (hL.mono h1) (by simp)).bind fun l l' L2 ⟨h2, hl⟩ => ?_
      refine (h.read ((hL.mono h1).mono h2) (by simp)).bind fun r r' L3 ⟨h3, hr⟩ => ?_
      exact h.write (((hL.mono h1).mono h2).mono h3) (h3.named (h2.named hd))
        ⟨rfl, .cons (hl.mono h3) (.cons hr .nil)⟩ rfl rfl
    cases op with
    | rem => exact .check hjp
    | _ => exact hjp _

end Rules

end DirectPage.Selection
