import DirectPage.Proofs.SelectionRun

/-! Shifts of a pair of words give the words of the shifted pair, for amounts that are constant and for amounts in a
register. Bits cross the words by 32 less the amount. -/
namespace DirectPage

def Ir.ShiftPartsOp.eval (op : ShiftPartsOp) (x : BitVec 64) (k : Nat) : BitVec 64 :=
  match op with
  | shl => x <<< k
  | lshr => x >>> k
  | ashr => x.sshiftRight k

/-- The values after a shift of a pair. The amount is taken modulo 64. -/
def Ir.Env.shiftParts (env : Env) (op : ShiftPartsOp) (dstLo dstHi lo hi : Value) (amount : Operand) : Env :=
  let x := op.eval (env hi ++ env lo) ((amount.eval env).toNat % 64)
  (env.set dstLo (x.extractLsb' 0 32)).set dstHi (x.extractLsb' 32 32)

section Halves

variable {w : Nat} (h l : BitVec w) {k : Nat}

private theorem shiftLeft_append (hk : k ≤ w) : (h ++ l) <<< k = (h <<< k ||| l >>> (w - k)) ++ l <<< k := by
  refine BitVec.eq_of_getLsbD_eq fun i hi => ?_
  rw [Bool.eq_iff_iff]
  simp only [BitVec.getLsbD_shiftLeft, BitVec.getLsbD_append, BitVec.getLsbD_or, BitVec.getLsbD_ushiftRight,
    Bool.and_eq_true, Bool.or_eq_true, Bool.not_eq_true', decide_eq_true_eq, decide_eq_false_iff_not,
    Bool.ite_eq_true_distrib]
  grind

private theorem shiftLeft_append_of_le (hk : w ≤ k) : (h ++ l) <<< k = l <<< (k - w) ++ 0#w := by
  refine BitVec.eq_of_getLsbD_eq fun i hi => ?_
  rw [Bool.eq_iff_iff]
  simp only [BitVec.getLsbD_shiftLeft, BitVec.getLsbD_append, BitVec.getLsbD_zero, Bool.and_eq_true,
    Bool.not_eq_true', decide_eq_true_eq, decide_eq_false_iff_not, Bool.ite_eq_true_distrib]
  grind

private theorem ushiftRight_append (hk : k ≤ w) : (h ++ l) >>> k = h >>> k ++ (l >>> k ||| h <<< (w - k)) := by
  refine BitVec.eq_of_getLsbD_eq fun i hi => ?_
  simp only [BitVec.getLsbD_shiftLeft, BitVec.getLsbD_append, BitVec.getLsbD_or, BitVec.getLsbD_ushiftRight]
  grind

private theorem ushiftRight_append_of_le (hk : w ≤ k) : (h ++ l) >>> k = 0#w ++ h >>> (k - w) := by
  refine BitVec.eq_of_getLsbD_eq fun i hi => ?_
  simp only [BitVec.getLsbD_append, BitVec.getLsbD_ushiftRight, BitVec.getLsbD_zero]
  grind

private theorem sshiftRight_append (hk : k < w) :
    (h ++ l).sshiftRight k = h.sshiftRight k ++ (l >>> k ||| h <<< (w - k)) := by
  refine BitVec.eq_of_getLsbD_eq fun i hi => ?_
  simp only [BitVec.getLsbD_shiftLeft, BitVec.getLsbD_append, BitVec.getLsbD_or, BitVec.getLsbD_ushiftRight,
    BitVec.getLsbD_sshiftRight, BitVec.msb_append]
  grind

/-- What comes in from above is the sign throughout. -/
private theorem sshiftRight_append_of_le (hw : 0 < w) (hk : w ≤ k) :
    (h ++ l).sshiftRight k = h.sshiftRight (w - 1) ++ h.sshiftRight (k - w) := by
  refine BitVec.eq_of_getLsbD_eq fun i hi => ?_
  simp only [BitVec.getLsbD_append, BitVec.getLsbD_sshiftRight, BitVec.msb_append]
  grind [BitVec.msb_eq_getLsbD_last]

end Halves

namespace Ir.ShiftPartsOp

variable (op : ShiftPartsOp) (h l : Word) {k : Nat}

/-- A left shift moves bits from the low word to the high one. -/
theorem eval_shl (hk : k < 32) : eval .shl (h ++ l) k = (h <<< k ||| l >>> (32 - k)) ++ l <<< k :=
  shiftLeft_append h l (Nat.le_of_lt hk)

/-- A right shift moves bits from the high word to the low one. -/
theorem eval_right (hop : op ≠ .shl) (hk : k < 32) :
    op.eval (h ++ l) k = (Selection.rightKind op).eval h k ++ (l >>> k ||| h <<< (32 - k)) := by
  cases op with
  | shl => exact absurd rfl hop
  | lshr => exact ushiftRight_append h l (Nat.le_of_lt hk)
  | ashr => exact sshiftRight_append h l hk

theorem eval_shl_of_le (hk : 32 ≤ k) : eval .shl (h ++ l) k = l <<< (k - 32) ++ 0#32 := shiftLeft_append_of_le h l hk

theorem eval_lshr_of_le (hk : 32 ≤ k) : eval .lshr (h ++ l) k = 0#32 ++ h >>> (k - 32) :=
  ushiftRight_append_of_le h l hk

theorem eval_ashr_of_le (hk : 32 ≤ k) :
    eval .ashr (h ++ l) k = h.sshiftRight 31 ++ h.sshiftRight (k - 32) :=
  sshiftRight_append_of_le h l (by omega) hk

end Ir.ShiftPartsOp

namespace Selection

section Steps

variable {cx cx' : Context} {st st' : Store} {w : Word} {n : Nat} {kind : ShiftKind} {src : Reg} {k : Nat}

theorem shifted_makes {amount : ShiftAmount} (hs : Has n cx st src w) (ha : amount.eval st.regs = k) :
    Makes (shifted kind src amount) cx st (Gives cx st (kind.eval w k)) :=
  makes_temp fun r => by rw [← hs.word, ← ha]; rfl

theorem shiftedBy_makes (hs : Has n cx st src w) (hk : k < 32) :
    Makes (shiftedBy kind src k) cx st (Gives cx st (kind.eval w k)) := by
  refine shifted_makes hs ?_
  simp only [ShiftAmount.eval, UInt8.toNat_ofNat']
  omega

theorem unionOf_makes {lhs rhs : Reg} {u v : Word} {n' : Nat} (hl : Has n cx st lhs u) (hr : Has n' cx st rhs v) :
    Makes (unionOf lhs rhs) cx st (Gives cx st (u ||| v)) :=
  makes_temp fun r => by rw [← hl.word, ← hr.word]; rfl

theorem zeroReg_makes : Makes zeroReg cx st (Gives cx st 0#32) := makes_temp fun _ => rfl

def HasPair (n : Nat) (cx : Context) (st : Store) (p : Reg × Reg) (x : BitVec 64) : Prop :=
  ∃ l h, Has n cx st p.1 l ∧ Has n cx st p.2 h ∧ h ++ l = x

end Steps

section Parts

variable {cx : Context} {st : Store} {op : Ir.ShiftPartsOp} {lo hi : Reg} {l h : Word}

def GivesPair (cx : Context) (st : Store) (x : BitVec 64) (p : Reg × Reg) (cx' : Context) (st' : Store) : Prop :=
  Later cx st cx' st' ∧ HasPair cx.routine.numVRegs cx' st' p x

/-- Two results, in the order in which they are found. -/
theorem givesPair {cx1 cx2 : Context} {st1 st2 : Store} {p : Reg × Reg} {u v : Word} {x : BitVec 64}
    (h1 : Later cx st cx1 st1) (h2 : Later cx1 st1 cx2 st2) (hlo : Has cx.routine.numVRegs cx2 st2 p.1 u)
    (hhi : Has cx.routine.numVRegs cx2 st2 p.2 v) (hx : v ++ u = x) : GivesPair cx st x p cx2 st2 :=
  ⟨h1.trans h2, u, v, hlo, hhi, hx⟩

theorem constantParts_makes {k : Nat} (hl : Has 0 cx st lo l) (hh : Has 0 cx st hi h) (hpos : 0 < k) (hk : k < 64) :
    Makes (constantParts op lo hi k) cx st (GivesPair cx st (op.eval (h ++ l) k)) := by
  unfold constantParts
  rw [if_neg (by omega)]
  by_cases hsmall : k < 32
  · rw [if_pos hsmall]
    have hright (hop : op ≠ .shl) : Makes (do
        let lower ← shiftedBy .lshr lo k
        let carry ← shiftedBy .shl hi (32 - k)
        let newLo ← unionOf lower carry
        let newHi ← shiftedBy (rightKind op) hi k
        return (newLo, newHi)) cx st (GivesPair cx st (op.eval (h ++ l) k)) := by
      refine (shiftedBy_makes hl hsmall).bind fun lower cx1 st1 ⟨h1, hlower⟩ => ?_
      refine (shiftedBy_makes (hh.later h1) (by omega)).bind fun carry cx2 st2 ⟨h2, hcarry⟩ => ?_
      refine (unionOf_makes (hlower.later h2) hcarry).bind fun newLo cx3 st3 ⟨h3, hlo⟩ => ?_
      have h13 := (h1.trans h2).trans h3
      refine (shiftedBy_makes (hh.later h13) hsmall).bind fun newHi cx4 st4 ⟨h4, hhi⟩ => .pure ?_
      exact givesPair h13 h4 ((hlo.later h4).mono (h1.trans h2).vregs) (hhi.mono h13.vregs)
        (op.eval_right h l hop hsmall).symm
    cases op with
    | shl =>
      refine (shiftedBy_makes hh hsmall).bind fun upper cx1 st1 ⟨h1, hupper⟩ => ?_
      refine (shiftedBy_makes (hl.later h1) (by omega)).bind fun carry cx2 st2 ⟨h2, hcarry⟩ => ?_
      refine (unionOf_makes (hupper.later h2) hcarry).bind fun newHi cx3 st3 ⟨h3, hhi⟩ => ?_
      have h13 := (h1.trans h2).trans h3
      refine (shiftedBy_makes (hl.later h13) hsmall).bind fun newLo cx4 st4 ⟨h4, hlo⟩ => .pure ?_
      exact givesPair h13 h4 (hlo.mono h13.vregs) ((hhi.later h4).mono (h1.trans h2).vregs)
        (Ir.ShiftPartsOp.eval_shl h l hsmall).symm
    | lshr => exact hright (by decide)
    | ashr => exact hright (by decide)
  · rw [if_neg hsmall]
    have hbig : 32 ≤ k := by omega
    cases op with
    | shl =>
      refine (shiftedBy_makes hl (by omega)).bind fun newHi cx1 st1 ⟨h1, hhi⟩ => ?_
      refine zeroReg_makes.bind fun newLo cx2 st2 ⟨h2, hlo⟩ => .pure ?_
      exact givesPair h1 h2 (hlo.mono h1.vregs) (hhi.later h2) (Ir.ShiftPartsOp.eval_shl_of_le h l hbig).symm
    | lshr =>
      refine (shiftedBy_makes hh (by omega)).bind fun newLo cx1 st1 ⟨h1, hlo⟩ => ?_
      refine zeroReg_makes.bind fun newHi cx2 st2 ⟨h2, hhi⟩ => .pure ?_
      exact givesPair h1 h2 (hlo.later h2) (hhi.mono h1.vregs) (Ir.ShiftPartsOp.eval_lshr_of_le h l hbig).symm
    | ashr =>
      refine (shiftedBy_makes hh (by omega)).bind fun newLo cx1 st1 ⟨h1, hlo⟩ => ?_
      refine (shiftedBy_makes (hh.later h1) (by omega)).bind fun newHi cx2 st2 ⟨h2, hhi⟩ => .pure ?_
      exact givesPair h1 h2 (hlo.later h2) (hhi.mono h1.vregs) (Ir.ShiftPartsOp.eval_ashr_of_le h l hbig).symm

structure GivesParts (n : Nat) (cx : Context) (st : Store) (x : BitVec 64) (k : Nat) (p : VariableParts) (cx' : Context)
    (st' : Store) : Prop where
  later : Later cx st cx' st'
  small : k < 32 → HasPair n cx' st' p.small x
  big : 32 ≤ k → HasPair n cx' st' p.big x
  amount : Has n cx' st' p.amount (BitVec.ofNat 32 k)

section Variable

variable {a inv : Reg} {n k : Nat} (hn : n ≤ cx.routine.numVRegs) (hl : Has 0 cx st lo l) (hh : Has 0 cx st hi h)
  (ha : Has n cx st a (BitVec.ofNat 32 k)) (hinv : Has n cx st inv (-BitVec.ofNat 32 k + 31#32)) (hk : k < 64)

private theorem Has.count {w : Word} (ha : Has n cx st a w) : (ShiftAmount.reg a).eval st.regs = w.toNat % 32 := by
  rw [ShiftAmount.eval, ha.word]

private theorem Has.count_ofNat (ha : Has n cx st a (BitVec.ofNat 32 k)) :
    (ShiftAmount.reg a).eval st.regs = k % 32 := by
  rw [ha.count, BitVec.toNat_ofNat]
  omega

/-- Moving bits by one and then by 31 less the amount is moving them by 32 less the amount. -/
private theorem crossing_counts (hk : k < 32) : 32 - k = 1 + (-BitVec.ofNat 32 k + 31#32).toNat % 32 := by
  simp only [BitVec.toNat_add, BitVec.toNat_neg, BitVec.toNat_ofNat]
  omega

include hn hl hh ha hinv hk

private theorem leftParts_makes : Makes (do
    let upper ← shifted .shl hi (.reg a)
    let half ← shiftedBy .lshr lo 1
    let carry ← shifted .lshr half (.reg inv)
    let hiSmall ← unionOf upper carry
    let loSmall ← shifted .shl lo (.reg a)
    let hiBig ← shifted .shl lo (.reg a)
    let loBig ← zeroReg
    return ⟨(loSmall, hiSmall), (loBig, hiBig), a⟩) cx st
      (GivesParts n cx st (Ir.ShiftPartsOp.eval .shl (h ++ l) k) k) := by
  refine (shifted_makes hh ha.count_ofNat).bind fun upper cx1 st1 ⟨h1, hupper⟩ => ?_
  refine (shiftedBy_makes (hl.later h1) (by omega)).bind fun half cx2 st2 ⟨h2, hhalf⟩ => ?_
  refine (shifted_makes hhalf (hinv.later (h1.trans h2)).count).bind fun carry cx3 st3 ⟨h3, hcarry⟩ => ?_
  refine (unionOf_makes (hupper.later (h2.trans h3)) hcarry).bind fun hiSmall cx4 st4 ⟨h4, hhs⟩ => ?_
  have h14 := ((h1.trans h2).trans h3).trans h4
  refine (shifted_makes (hl.later h14) (ha.later h14).count_ofNat).bind fun loSmall cx5 st5 ⟨h5, hls⟩ => ?_
  have h15 := h14.trans h5
  refine (shifted_makes (hl.later h15) (ha.later h15).count_ofNat).bind fun hiBig cx6 st6 ⟨h6, hhb⟩ => ?_
  refine zeroReg_makes.bind fun loBig cx7 st7 ⟨h7, hlb⟩ => .pure ?_
  have h17 := (h15.trans h6).trans h7
  refine ⟨h17,
    fun hsmall => ⟨_, _, (hls.later (h6.trans h7)).mono ?_, (hhs.later ((h5.trans h6).trans h7)).mono ?_, ?_⟩,
    fun hbig => ⟨_, _, hlb.mono ?_, (hhb.later h7).mono ?_, ?_⟩, ha.later h17⟩
  · exact Nat.le_trans hn h14.vregs
  · exact Nat.le_trans hn ((h1.trans h2).trans h3).vregs
  · rw [Ir.ShiftPartsOp.eval_shl h l hsmall, crossing_counts hsmall, BitVec.shiftRight_add, Nat.mod_eq_of_lt hsmall]
    rfl
  · exact Nat.le_trans hn (h15.trans h6).vregs
  · exact Nat.le_trans hn h15.vregs
  · rw [Ir.ShiftPartsOp.eval_shl_of_le h l hbig, show k - 32 = k % 32 by omega]
    rfl

private theorem rightParts_makes (hop : op ≠ .shl) : Makes (do
    let lower ← shifted .lshr lo (.reg a)
    let half ← shiftedBy .shl hi 1
    let carry ← shifted .shl half (.reg inv)
    let loSmall ← unionOf lower carry
    let hiSmall ← shifted (rightKind op) hi (.reg a)
    let loBig ← shifted (rightKind op) hi (.reg a)
    let hiBig ← if op = .ashr then shiftedBy .ashr hi 31 else zeroReg
    return ⟨(loSmall, hiSmall), (loBig, hiBig), a⟩) cx st (GivesParts n cx st (op.eval (h ++ l) k) k) := by
  refine (shifted_makes hl ha.count_ofNat).bind fun lower cx1 st1 ⟨h1, hlower⟩ => ?_
  refine (shiftedBy_makes (hh.later h1) (by omega)).bind fun half cx2 st2 ⟨h2, hhalf⟩ => ?_
  refine (shifted_makes hhalf (hinv.later (h1.trans h2)).count).bind fun carry cx3 st3 ⟨h3, hcarry⟩ => ?_
  refine (unionOf_makes (hlower.later (h2.trans h3)) hcarry).bind fun loSmall cx4 st4 ⟨h4, hls⟩ => ?_
  have h14 := ((h1.trans h2).trans h3).trans h4
  refine (shifted_makes (hh.later h14) (ha.later h14).count_ofNat).bind fun hiSmall cx5 st5 ⟨h5, hhs⟩ => ?_
  have h15 := h14.trans h5
  refine (shifted_makes (hh.later h15) (ha.later h15).count_ofNat).bind fun loBig cx6 st6 ⟨h6, hlb⟩ => ?_
  have hdone {fill : Select Reg} {above : Word} (hfill : Makes fill cx6 st6 (Gives cx6 st6 above))
      (hbig : 32 ≤ k → above ++ (rightKind op).eval h (k - 32) = op.eval (h ++ l) k) : Makes (do
        let hiBig ← fill
        return (⟨(loSmall, hiSmall), (loBig, hiBig), a⟩ : VariableParts)) cx6 st6
          (GivesParts n cx st (op.eval (h ++ l) k) k) := by
    refine hfill.bind fun hiBig cx7 st7 ⟨h7, hhb⟩ => .pure ?_
    have h17 := (h15.trans h6).trans h7
    refine ⟨h17,
      fun hsmall => ⟨_, _, (hls.later ((h5.trans h6).trans h7)).mono ?_, (hhs.later (h6.trans h7)).mono ?_, ?_⟩,
      fun hle => ⟨_, _, (hlb.later h7).mono ?_, hhb.mono ?_, ?_⟩, ha.later h17⟩
    · exact Nat.le_trans hn ((h1.trans h2).trans h3).vregs
    · exact Nat.le_trans hn h14.vregs
    · rw [op.eval_right h l hop hsmall, crossing_counts hsmall, BitVec.shiftLeft_add, Nat.mod_eq_of_lt hsmall]
      rfl
    · exact Nat.le_trans hn h15.vregs
    · exact Nat.le_trans hn (h15.trans h6).vregs
    · rw [← hbig hle, show k % 32 = k - 32 by omega]
  -- above stands the sign or zero
  split
  · next hash =>
    subst hash
    exact hdone (shiftedBy_makes (hh.later (h15.trans h6)) (by omega)) fun hbig =>
      (Ir.ShiftPartsOp.eval_ashr_of_le h l hbig).symm
  · next hash =>
    obtain rfl : op = .lshr := by cases op <;> first | rfl | contradiction
    exact hdone zeroReg_makes fun hbig => (Ir.ShiftPartsOp.eval_lshr_of_le h l hbig).symm

end Variable

private theorem and_63 (w : Word) : w &&& 63#32 = BitVec.ofNat 32 (w.toNat % 64) := by
  apply BitVec.eq_of_toNat_eq
  have hmod : w.toNat &&& 63 = w.toNat % 64 := Nat.and_two_pow_sub_one_eq_mod w.toNat 6
  simp only [BitVec.toNat_and, BitVec.toNat_ofNat, Nat.reducePow, Nat.reduceMod, hmod]
  omega

theorem variableParts_makes {amount : Reg} {w : Word} (hl : Has 0 cx st lo l) (hh : Has 0 cx st hi h)
    (ha : Has 0 cx st amount w) : Makes (variableParts op lo hi amount) cx st
      (GivesParts cx.routine.numVRegs cx st (op.eval (h ++ l) (w.toNat % 64)) (w.toNat % 64)) := by
  unfold variableParts
  refine makes_temp_bind (w := BitVec.ofNat 32 (w.toNat % 64)) (fun r => ?_) fun a cx1 st1 ⟨h1, ha⟩ => ?_
  · rw [← and_63, ← ha.word]
    rfl
  refine makes_temp_bind (w := -BitVec.ofNat 32 (w.toNat % 64)) (fun r => by rw [← ha.word]; rfl)
    fun neg cx2 st2 ⟨h2, hneg⟩ => ?_
  refine makes_temp_bind (w := -BitVec.ofNat 32 (w.toNat % 64) + 31#32) (fun r => by rw [← hneg.word]; rfl)
    fun inv cx3 st3 ⟨h3, hinv⟩ => ?_
  have h13 := (h1.trans h2).trans h3
  have ha3 := ha.later (h2.trans h3)
  have hinv3 := hinv.mono (h1.trans h2).vregs
  have hk : w.toNat % 64 < 64 := by omega
  have hwiden (p : VariableParts) (cx' : Context) (st' : Store)
      (hp : GivesParts cx.routine.numVRegs cx3 st3 (op.eval (h ++ l) (w.toNat % 64)) (w.toNat % 64) p cx' st') :
      GivesParts cx.routine.numVRegs cx st (op.eval (h ++ l) (w.toNat % 64)) (w.toNat % 64) p cx' st' :=
    { hp with later := h13.trans hp.later }
  cases op with
  | shl => exact (leftParts_makes h13.vregs (hl.later h13) (hh.later h13) ha3 hinv3 hk).mono hwiden
  | lshr => exact (rightParts_makes h13.vregs (hl.later h13) (hh.later h13) ha3 hinv3 hk (by decide)).mono hwiden
  | ashr => exact (rightParts_makes h13.vregs (hl.later h13) (hh.later h13) ha3 hinv3 hk (by decide)).mono hwiden

end Parts

section ShiftParts

variable {f : Ir.Function} {op : Ir.ShiftPartsOp} {dstLo dstHi lo hi : Ir.Value} {amount : Ir.Operand} {cx : Context}
  {st : Store}

def shiftSources (lo hi : Ir.Value) (amount : Ir.Operand) : List Ir.Value := lo :: hi :: amount.values

/-- What a shift of a pair ends in: the destinations hold the words of the shifted pair, and other values are where
they were. -/
def ShiftsPair (op : Ir.ShiftPartsOp) (dstLo dstHi lo hi : Ir.Value) (amount : Ir.Operand) (cx' : Context)
    (st st' : Store) : Prop :=
  ∀ known env, (∀ v ∈ shiftSources lo hi amount, v ∈ known) → Holds known cx'.values st env →
    Holds (dstHi :: dstLo :: known) cx'.values st' (env.shiftParts op dstLo dstHi lo hi amount)

/-- Two operations that fill the destinations. -/
private theorem fill_makes {cx1 : Context} {st1 : Store} {dl dh : Reg} {m m' : Pseudo} (wl wh : Word) (hv : Valid cx)
    (hdl : cx.values.lookup dstLo = some dl) (hdh : cx.values.lookup dstHi = some dh) (hl : Later cx st cx1 st1)
    (hm : m.eval st1 = some (st1.set dl wl)) (hm' : m'.eval (st1.set dl wl) = some ((st1.set dl wl).set dh wh))
    (hw : ∀ known env, (∀ v ∈ shiftSources lo hi amount, v ∈ known) → Holds known cx.values st env →
      wh ++ wl = op.eval (env hi ++ env lo) ((amount.eval env).toNat % 64)) :
    Makes (do emit m; emit m') cx1 st1 fun _ cx' st' =>
      Valid cx' ∧ cx'.values = cx.values ∧ ShiftsPair op dstLo dstHi lo hi amount cx' st st' := by
  refine Makes.bind (.emit (P := fun _ cx' st' => cx'.values = cx.values ∧ cx'.routine = cx1.routine ∧
    st' = st1.set dl wl) hm fun cx2 hvalues hroutine => ⟨hvalues.trans hl.values, hroutine, rfl⟩) ?_
  rintro _ cx2 _ ⟨hvalues, hroutine, rfl⟩
  refine .emit hm' fun cx3 hvalues' hroutine' => ?_
  replace hvalues := hvalues'.trans hvalues
  refine ⟨hv.later hvalues (by rw [hroutine', hroutine]; exact hl.vregs), hvalues, fun known env hknown hh => ?_⟩
  rw [hvalues] at hh ⊢
  rw [Ir.Env.shiftParts, ← hw known env hknown hh, BitVec.extractLsb'_append_eq_left,
    BitVec.extractLsb'_append_eq_right]
  exact ((hh.later hv hl).assign hv hdl).assign hv hdh

section Ends

variable {l h dl dh : Reg} (hv : Valid cx) (hl : cx.values.lookup lo = some l) (hh : cx.values.lookup hi = some h)
  (hdl : cx.values.lookup dstLo = some dl) (hdh : cx.values.lookup dstHi = some dh)

include hv hl hh hdl hdh

private theorem constantEnd_makes (hne : hi ≠ dstLo) (k : Word) : Makes (do
    let (newLo, newHi) ← constantParts op l h (k.toNat % 64)
    emit (.copy dl newLo)
    emit (.copy dh newHi)) cx st fun _ cx' st' =>
      Valid cx' ∧ cx'.values = cx.values ∧ ShiftsPair op dstLo dstHi lo hi (.imm k) cx' st st' := by
  have hread {known : List Ir.Value} {env : Ir.Env} (hknown : ∀ v ∈ shiftSources lo hi (.imm k), v ∈ known)
      (hold : Holds known cx.values st env) : st.regs l = env lo ∧ st.regs h = env hi :=
    ⟨hold.read (hknown lo (by simp [shiftSources])) hl, hold.read (hknown hi (by simp [shiftSources])) hh⟩
  by_cases hk : k.toNat % 64 = 0
  · -- the words themselves
    rw [hk]
    have hpair : constantParts op l h 0 = pure (l, h) := by unfold constantParts; rw [if_pos rfl]
    rw [hpair]
    refine fill_makes (st.regs l) (st.regs h) hv hdl hdh (.refl cx st) rfl ?_ fun known env hknown hold => ?_
    · have hne' : h ≠ dl := fun he => hne (hv.inj _ _ _ hh (he ▸ hdl))
      rw [Pseudo.eval, Pseudo.result, Store.regs_set_ne _ hne']
      rfl
    · obtain ⟨h1, h2⟩ := hread hknown hold
      rw [h1, h2, Ir.Operand.eval, hk]
      cases op <;> simp [Ir.ShiftPartsOp.eval]
  · refine (constantParts_makes (hv.has hl) (hv.has hh) (by omega) (by omega)).bind ?_
    rintro p cx1 st1 ⟨hlater, wl, wh, hwl, hwh, hw⟩
    refine fill_makes wl wh hv hdl hdh hlater (by rw [← hwl.word]; rfl) ?_ fun known env hknown hold => ?_
    · rw [Pseudo.eval, Pseudo.result, Store.regs_set_ne _ (hwh.ne hv hdl), hwh.word]
      rfl
    · obtain ⟨h1, h2⟩ := hread hknown hold
      rw [hw, h1, h2]
      rfl

private theorem variableEnd_makes {v : Ir.Value} {a : Reg} (ha : cx.values.lookup v = some a) : Makes (do
    let parts ← variableParts op l h a
    emit (.selectCc (.int .uge parts.amount (.imm 32#32)) dl parts.big.1 parts.small.1)
    emit (.selectCc (.int .uge parts.amount (.imm 32#32)) dh parts.big.2 parts.small.2)) cx st fun _ cx' st' =>
      Valid cx' ∧ cx'.values = cx.values ∧ ShiftsPair op dstLo dstHi lo hi (.value v) cx' st st' := by
  refine (variableParts_makes (hv.has hl) (hv.has hh) (hv.has ha)).bind fun p cx1 st1 hp => ?_
  generalize hk : (st.regs a).toNat % 64 = k at hp
  have hk64 : k < 64 := by omega
  -- the compare tells the two ranges of the amount apart
  have huge : CondCode.holds .uge (BitVec.ofNat 32 k) 32#32 = decide (32 ≤ k) := by
    simp only [CondCode.holds, BitVec.ule, BitVec.toNat_ofNat]
    exact decide_eq_decide.mpr (by omega)
  obtain ⟨wl, wh, hwl, hwh, hw⟩ : HasPair cx.routine.numVRegs cx1 st1 (if 32 ≤ k then p.big else p.small)
      (op.eval (st.regs h ++ st.regs l) k) := by
    split
    · next hbig => exact hp.big hbig
    · next hsmall => exact hp.small (by omega)
  have hselect (st' : Store) (ham : st'.regs p.amount = BitVec.ofNat 32 k) (d x y : Reg) :
      (Pseudo.selectCc (.int .uge p.amount (.imm 32#32)) d x y).eval st' =
        some (st'.set d (st'.regs (if 32 ≤ k then x else y))) := by
    simp only [Pseudo.eval, Pseudo.result, CmpRhs.eval, ham, huge, decide_eq_true_eq, Option.map_some]
    split <;> rfl
  refine fill_makes wl wh hv hdl hdh hp.later ?_ ?_ fun known env hknown hold => ?_
  · rw [hselect st1 hp.amount.word, ← hwl.word, apply_ite Prod.fst]
  · rw [hselect _ (by rw [Store.regs_set_ne _ (hp.amount.ne hv hdl), hp.amount.word]), ← apply_ite Prod.snd,
      Store.regs_set_ne _ (hwh.ne hv hdl), hwh.word]
  · rw [hw, ← hk, hold.read (hknown lo (by simp [shiftSources])) hl, hold.read (hknown hi (by simp [shiftSources])) hh,
      hold.read (hknown v (by simp [shiftSources, Ir.Operand.values])) ha]
    rfl

end Ends

theorem shiftParts_makes (op : Ir.ShiftPartsOp) (st : Store) (hv : Valid cx)
    (htypes : ∀ v ∈ dstLo :: dstHi :: shiftSources lo hi amount, ∃ ty, f.valueType v = .ok ty) (hne : hi ≠ dstLo) :
    Makes (shiftParts f op dstLo dstHi lo hi amount) cx st fun _ cx' st' => Valid cx' ∧
      (∀ v ∈ dstLo :: dstHi :: shiftSources lo hi amount, ∃ r, cx'.values.lookup v = some r) ∧
      ShiftsPair op dstLo dstHi lo hi amount cx' st st' := by
  simp only [shiftSources, List.forall_mem_cons] at htypes ⊢
  obtain ⟨⟨_, hdl⟩, ⟨_, hdh⟩, ⟨_, hl⟩, ⟨_, hh⟩, hamount⟩ := htypes
  unfold shiftParts
  refine Makes.bind (P := fun _ cx1 st1 => cx1 = cx ∧ st1 = st) ⟨_, cx, [], st, rfl, by simp, rfl, rfl, rfl⟩ ?_
  rintro _ _ _ ⟨rfl, rfl⟩
  refine (reg_makes hv hl).bind ?_
  rintro l cx1 _ ⟨hv1, hl, -, rfl⟩
  refine (reg_makes hv1 hh).bind ?_
  rintro h cx2 _ ⟨hv2, hh, hkeep2, rfl⟩
  refine (reg_makes hv2 hdl).bind ?_
  rintro dl cx3 _ ⟨hv3, hdl, hkeep3, rfl⟩
  refine (reg_makes hv3 hdh).bind ?_
  rintro dh cx4 _ ⟨hv4, hdh, hkeep4, rfl⟩
  replace hl := hkeep4 _ _ (hkeep3 _ _ (hkeep2 _ _ hl))
  replace hh := hkeep4 _ _ (hkeep3 _ _ hh)
  replace hdl := hkeep4 _ _ hdl
  cases amount with
  | imm k =>
    refine (constantEnd_makes hv4 hl hh hdl hdh hne k).mono ?_
    rintro _ cx' st' ⟨hvalid, hvalues, hshift⟩
    rw [hvalues]
    exact ⟨hvalid, ⟨⟨dl, hdl⟩, ⟨dh, hdh⟩, ⟨l, hl⟩, ⟨h, hh⟩, by simp [Ir.Operand.values]⟩, hshift⟩
  | value v =>
    obtain ⟨_, hv⟩ := hamount v (by simp [Ir.Operand.values])
    refine (reg_makes hv4 hv).bind ?_
    rintro a cx5 _ ⟨hv5, ha, hkeep5, rfl⟩
    refine (variableEnd_makes hv5 (hkeep5 _ _ hl) (hkeep5 _ _ hh) (hkeep5 _ _ hdl) (hkeep5 _ _ hdh) ha).mono ?_
    rintro _ cx' st' ⟨hvalid, hvalues, hshift⟩
    rw [hvalues]
    exact ⟨hvalid, ⟨⟨dl, hkeep5 _ _ hdl⟩, ⟨dh, hkeep5 _ _ hdh⟩, ⟨l, hkeep5 _ _ hl⟩, ⟨h, hkeep5 _ _ hh⟩,
      by simpa [Ir.Operand.values] using ⟨a, ha⟩⟩, hshift⟩

/-- A shift of a pair of words by an amount, constant or not, is selected as operations that leave the low and the high
word of the pair, shifted as one number by the amount modulo 64, in the registers of the destinations, whatever the
registers held. The low destination must not be the high source, since it is filled first. -/
theorem shiftParts_computes (hv : Valid cx)
    (htypes : ∀ v ∈ dstLo :: dstHi :: shiftSources lo hi amount, ∃ ty, f.valueType v = .ok ty) (hne : hi ≠ dstLo) :
    ∃ cx' ops, (shiftParts f op dstLo dstHi lo hi amount).run cx = .ok ((), cx') ∧ cx'.out = cx.out ++ ops ∧
      Valid cx' ∧ (∀ v ∈ dstLo :: dstHi :: shiftSources lo hi amount, ∃ r, cx'.values.lookup v = some r) ∧
      ∀ st, ∃ st', Pseudo.evalAll st ops = some st' ∧ ShiftsPair op dstLo dstHi lo hi amount cx' st st' := by
  obtain ⟨_, cx', ops, hrun, hout, hall⟩ := Makes.uniform fun st => shiftParts_makes op st hv htypes hne
  obtain ⟨-, -, hvalid, hregs, -⟩ := hall ⟨fun _ => 0#32, fun _ => 0#32⟩
  refine ⟨cx', ops, hrun, hout, hvalid, hregs, fun st => ?_⟩
  obtain ⟨st', heval, -, -, hshift⟩ := hall st
  exact ⟨st', heval, hshift⟩

def pairFunction : Ir.Function where
  name := "pair"
  valueTypes := [.f64, .i32, .i32, .i32, .i32, .i32]

def pairStore : Store := ⟨fun r => if r = .virt 1 then 0x80000001#32 else 68#32, fun _ => 0#32⟩

theorem shiftParts_computes_ashr : ∃ cx' ops st',
    (shiftParts pairFunction .ashr 4 5 1 2 (.value 3)).run ⟨.empty "pair" 1, {}, [], []⟩ = .ok ((), cx') ∧
      cx'.out = ops ∧ Pseudo.evalAll pairStore ops = some st' ∧
      cx'.values.lookup 4 = some (.virt 2) ∧ st'.regs (.virt 2) = 0x10000004#32 ∧
      cx'.values.lookup 5 = some (.virt 3) ∧ st'.regs (.virt 3) = 0xF8000000#32 := by
  have htypes (v : Ir.Value) (hv : v ∈ 4 :: 5 :: shiftSources 1 2 (.value 3)) :
      ∃ ty, pairFunction.valueType v = .ok ty := by
    simp only [shiftSources, Ir.Operand.values, List.mem_cons, List.not_mem_nil, or_false] at hv
    rcases hv with rfl | rfl | rfl | rfl | rfl <;> exact ⟨.i32, rfl⟩
  obtain ⟨cx', ops, hrun, hout, -, -, hall⟩ := @shiftParts_computes pairFunction .ashr 4 5 1 2 (.value 3)
    ⟨.empty "pair" 1, {}, [], []⟩ ⟨fun _ _ h => (by cases h), fun _ _ _ h => (by cases h)⟩ htypes (by decide)
  obtain ⟨st', heval, hshift⟩ := hall pairStore
  cases hrun
  have hold := hshift [1, 2, 3] (fun v => if v = 2 then 0x80000001#32 else 68#32) (by decide) fun v hv => by
    simp only [List.mem_cons, List.not_mem_nil, or_false] at hv
    rcases hv with rfl | rfl | rfl <;> exact ⟨_, rfl, rfl⟩
  exact ⟨_, ops, st', rfl, hout, heval, rfl, hold.read (v := 4) (by decide) rfl, rfl,
    hold.read (v := 5) (by decide) rfl⟩

end ShiftParts

end Selection

end DirectPage
