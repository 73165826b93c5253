import DirectPage.Proofs.SelectionRun

/-! Arithmetic on narrow integers. Registers are wider than the types, and what stands above the bits of a type is left
open. The operations selected for narrow types leave the right bits in their place whatever stands above them. -/
namespace DirectPage

namespace Ir

def Ty.bits (ty : Ty) : Nat := 8 * ty.bytes

def Ty.low (ty : Ty) (w : Word) : BitVec ty.bits := w.setWidth ty.bits

def Ty.extended (ty : Ty) (signed : Bool) (w : Word) : Word :=
  if signed then (ty.low w).signExtend 32 else (ty.low w).setWidth 32

def BinOp.divides : BinOp → Bool
  | sdiv | udiv | srem | urem => true
  | _ => false

/-- An operation on numbers of some bits. They wrap around, counts are taken modulo 32, and division rounds towards zero
and has no result where the divisor is zero. Rotations and high words of products are for whole words only. -/
def BinOp.evalAt {w : Nat} (op : BinOp) (l r : BitVec w) : Option (BitVec w) :=
  match op with
  | add => some (l + r)
  | sub => some (l - r)
  | mul => some (l * r)
  | sdiv => if r = 0#w then none else some (BitVec.ofInt w (l.toInt.tdiv r.toInt))
  | udiv => if r = 0#w then none else some (BitVec.ofNat w (l.toNat / r.toNat))
  | srem => if r = 0#w then none else some (BitVec.ofInt w (l.toInt.tmod r.toInt))
  | urem => if r = 0#w then none else some (BitVec.ofNat w (l.toNat % r.toNat))
  | and => some (l &&& r)
  | or => some (l ||| r)
  | xor => some (l ^^^ r)
  | shl => some (l <<< (r.toNat % 32))
  | lshr => some (l >>> (r.toNat % 32))
  | ashr => some (l.sshiftRight (r.toNat % 32))
  | mulHs | mulHu | rotl | rotr => none

end Ir

namespace Selection

section Words

variable {ty : Ir.Ty} {op : Ir.BinOp}

section

variable (h : isNarrow ty = true)

include h

theorem bits_narrow : 5 ≤ ty.bits ∧ ty.bits ≤ 32 := by
  cases ty with
  | i8 | i16 => decide
  | _ => cases h

theorem toInt_extended (w : Word) : (ty.extended true w).toInt = (ty.low w).toInt :=
  BitVec.toInt_signExtend_of_le (bits_narrow h).2

theorem toNat_extended (w : Word) : (ty.extended false w).toNat = (ty.low w).toNat :=
  BitVec.toNat_setWidth_of_le (bits_narrow h).2

theorem low_extended (signed : Bool) (w : Word) : ty.low (ty.extended signed w) = ty.low w := by
  have hle := (bits_narrow h).2
  cases signed with
  | false => exact (BitVec.setWidth_setWidth_of_le _ hle).trans (BitVec.setWidth_eq _)
  | true =>
    refine BitVec.eq_of_getLsbD_eq fun i hi => ?_
    simp only [Ir.Ty.extended, Ir.Ty.low, if_true, BitVec.getLsbD_setWidth, BitVec.getLsbD_signExtend]
    grind

theorem extended_eq_zero_iff (signed : Bool) (w : Word) :
    ty.extended signed w = 0#32 ↔ ty.low w = BitVec.ofNat ty.bits 0 := by
  constructor
  · intro he
    rw [← low_extended h signed, he]
    simp [Ir.Ty.low]
  · intro he
    cases signed with
    | false => simp [Ir.Ty.extended, he]
    | true =>
      apply BitVec.eq_of_toInt_eq
      rw [toInt_extended h, he]
      simp

private theorem low_ofInt (i : Int) : ty.low (BitVec.ofInt 32 i) = BitVec.ofInt ty.bits i := by
  apply BitVec.eq_of_toNat_eq
  rw [Ir.Ty.low, BitVec.toNat_setWidth, BitVec.toNat_ofInt, BitVec.toNat_ofInt]
  cases ty with
  | i8 | i16 =>
    simp only [Ir.Ty.bits, Ir.Ty.bytes]
    omega
  | _ => cases h

private theorem low_ofNat (n : Nat) : ty.low (BitVec.ofNat 32 n) = BitVec.ofNat ty.bits n :=
  BitVec.setWidth_ofNat_of_le (bits_narrow h).2 n

/-- Counts below 32 are in the bits of every type. -/
private theorem count_low (w : Word) : (ty.low w).toNat % 32 = w.toNat % 32 := by
  rw [Ir.Ty.low, BitVec.toNat_setWidth]
  cases ty with
  | i8 | i16 =>
    simp only [Ir.Ty.bits, Ir.Ty.bytes]
    omega
  | _ => cases h

private theorem low_shiftLeft (w : Word) (n : Nat) : ty.low (w <<< n) = ty.low w <<< n := by
  have hle := (bits_narrow h).2
  refine BitVec.eq_of_getLsbD_eq fun i hi => ?_
  simp only [Ir.Ty.low, BitVec.getLsbD_setWidth, BitVec.getLsbD_shiftLeft]
  grind

private theorem low_ushiftRight (w : Word) (n : Nat) : ty.low (ty.extended false w >>> n) = ty.low w >>> n := by
  have hle := (bits_narrow h).2
  refine BitVec.eq_of_getLsbD_eq fun i hi => ?_
  simp only [Ir.Ty.extended, Ir.Ty.low, Bool.false_eq_true, if_false, BitVec.getLsbD_setWidth,
    BitVec.getLsbD_ushiftRight]
  grind

private theorem low_sshiftRight (w : Word) (n : Nat) :
    ty.low ((ty.extended true w).sshiftRight n) = (ty.low w).sshiftRight n := by
  rw [BitVec.sshiftRight, low_ofInt h, toInt_extended h]
  rfl

end

def leftWord (op : Ir.BinOp) (ty : Ir.Ty) (w : Word) : Word :=
  match signedness? op with
  | none => w
  | some signed => ty.extended signed w

def rightWord (op : Ir.BinOp) (ty : Ir.Ty) (w : Word) : Word :=
  match op with
  | .ashr | .lshr => w
  | _ => leftWord op ty w

theorem rightWord_some {signed : Bool} (h : signedness? op = some signed) (hashr : op ≠ .ashr) (hlshr : op ≠ .lshr)
    (w : Word) : rightWord op ty w = ty.extended signed w := by
  unfold rightWord
  split
  · exact absurd rfl hashr
  · exact absurd rfl hlshr
  · rw [leftWord, h]

private theorem low_division (h : isNarrow ty = true) (signed : Bool) (r : Word) {x : Word} {y : BitVec ty.bits}
    (hxy : ty.low x = y) :
    (if ty.extended signed r = 0#32 then none else some x).map ty.low =
      if ty.low r = BitVec.ofNat ty.bits 0 then none else some y := by
  simp only [extended_eq_zero_iff h signed, ← hxy]
  split <;> rfl

variable (h : isNarrow ty = true) (hop : binaryAction? op ty = some .expand)

include h hop

/-- Operations on whole words only are not accepted on narrow types. -/
theorem narrow_not_whole : op ∉ [.mulHs, .mulHu, .rotl, .rotr] := by
  cases ty with
  | i8 | i16 => revert hop; cases op <;> decide
  | _ => cases h

/-- The low bits of an operation on widened operands are the operation on their low bits. -/
theorem low_eval (l r : Word) :
    (op.eval (leftWord op ty l) (rightWord op ty r)).map ty.low = op.evalAt (ty.low l) (ty.low r) := by
  have hle := (bits_narrow h).2
  cases op with
  | add => exact congrArg some (BitVec.setWidth_add l r hle)
  | sub =>
    refine congrArg some ?_
    rw [Ir.Ty.low, BitVec.sub_eq_add_neg, BitVec.sub_eq_add_neg, BitVec.setWidth_add _ _ hle,
      BitVec.setWidth_neg_of_le hle]
    rfl
  | mul => exact congrArg some (BitVec.setWidth_mul l r hle)
  | sdiv =>
    refine low_division h true r ?_
    simp only [leftWord, rightWord, signedness?]
    rw [low_ofInt h, toInt_extended h, toInt_extended h]
  | udiv =>
    refine low_division h false r ?_
    simp only [leftWord, rightWord, signedness?]
    rw [low_ofNat h, toNat_extended h, toNat_extended h]
  | srem =>
    refine low_division h true r ?_
    simp only [leftWord, rightWord, signedness?]
    rw [low_ofInt h, toInt_extended h, toInt_extended h]
  | urem =>
    refine low_division h false r ?_
    simp only [leftWord, rightWord, signedness?]
    rw [low_ofNat h, toNat_extended h, toNat_extended h]
  | and => exact congrArg some BitVec.setWidth_and
  | or => exact congrArg some BitVec.setWidth_or
  | xor => exact congrArg some BitVec.setWidth_xor
  | shl =>
    rw [Ir.BinOp.evalAt, count_low h]
    exact congrArg some (low_shiftLeft h l _)
  | lshr =>
    rw [Ir.BinOp.evalAt, count_low h]
    exact congrArg some (low_ushiftRight h l _)
  | ashr =>
    rw [Ir.BinOp.evalAt, count_low h]
    exact congrArg some (low_sshiftRight h l _)
  | mulHs | mulHu | rotl | rotr => exact absurd (by simp) (narrow_not_whole h hop)

/-- Only division has operands without a result. -/
theorem evalAt_eq_none_iff {w : Nat} (l r : BitVec w) : op.evalAt l r = none ↔ op.divides = true ∧ r = 0#w := by
  cases op with
  | mulHs | mulHu | rotl | rotr => exact absurd (by simp) (narrow_not_whole h hop)
  | _ => simp [Ir.BinOp.evalAt, Ir.BinOp.divides]

end Words

section Steps

variable {cx cx' : Context} {st st' : Store} {ty : Ir.Ty} {op : Ir.BinOp} {src : Source} {l d : Reg} {wl wr : Word}

def HasSource (cx : Context) (st : Store) (src : Source) (w : Word) : Prop :=
  match src with
  | .reg r => Has 0 cx st r w
  | .imm k => k = w

theorem HasSource.later (h : HasSource cx st src wr) (hl : Later cx st cx' st') : HasSource cx' st' src wr := by
  cases src with
  | reg r => exact Has.later h hl
  | imm k => exact h

theorem HasSource.eval (h : HasSource cx st src wr) : src.eval st.regs = wr := by
  cases src with
  | reg r => exact Has.word h
  | imm k => exact h

theorem inReg_makes (h : HasSource cx st src wr) :
    Makes src.inReg cx st fun r cx' st' => Later cx st cx' st' ∧ Has 0 cx' st' r wr := by
  cases src with
  | reg r => exact .pure ⟨.refl cx st, h⟩
  | imm k =>
    obtain rfl : k = wr := h
    exact (makes_temp fun _ => rfl).mono fun r _ _ ⟨hl, hr⟩ => ⟨hl, hr.mono (Nat.zero_le _)⟩

private theorem extension?_narrow (h : isNarrow ty = true) (signed : Bool) :
    ∃ ext, extension? ty signed = some ext ∧ (∀ w, ext.eval w = ty.extended signed w) ∧
      ∀ k, extendConstant ext k = ty.extended signed k := by
  cases ty with
  | i8 =>
    cases signed with
    | true => exact ⟨.sext8, rfl, unaryOp_eval .sext8, fun _ => rfl⟩
    | false => exact ⟨.zext8, rfl, unaryOp_eval .zext8, fun _ => rfl⟩
  | i16 =>
    cases signed with
    | true => exact ⟨.sext16, rfl, unaryOp_eval .sext16, fun _ => rfl⟩
    | false => exact ⟨.zext16, rfl, unaryOp_eval .zext16, fun _ => rfl⟩
  | _ => cases h

theorem extend_makes {ext : UnaryOp} {r : Reg} {w : Word} (hr : Has 0 cx st r w) :
    Makes (extend ext r) cx st (Gives cx st (ext.eval w)) :=
  makes_temp fun _ => by rw [← hr.word]; rfl

theorem widen_makes (h : isNarrow ty = true) (hl : Has 0 cx st l wl) (hr : HasSource cx st src wr) :
    Makes (widen op ty l src) cx st fun p cx' st' => Later cx st cx' st' ∧
      Has 0 cx' st' p.1 (leftWord op ty wl) ∧ HasSource cx' st' p.2 (rightWord op ty wr) := by
  unfold widen leftWord
  cases hsign : signedness? op with
  | none =>
    have hright : rightWord op ty wr = wr := by cases op <;> first | rfl | cases hsign
    rw [hright]
    exact .pure ⟨.refl cx st, hl, hr⟩
  | some signed =>
    obtain ⟨ext, hext, heval, hconst⟩ := extension?_narrow h signed
    dsimp only
    rw [lift_bind (orFail_eq_ok.mpr hext)]
    refine (extend_makes hl).bind fun wide cx1 st1 ⟨h1, hwide⟩ => ?_
    rw [heval] at hwide
    replace hwide := hwide.mono (Nat.zero_le _)
    replace hr := hr.later h1
    split
    · exact .pure ⟨h1, hwide, hr⟩
    · exact .pure ⟨h1, hwide, hr⟩
    · -- both operands of a division are widened
      next r hashr hlshr =>
      refine (extend_makes hr).bind fun wide' cx2 st2 ⟨h2, hwide'⟩ => .pure ⟨h1.trans h2, hwide.later h2, ?_⟩
      rw [rightWord_some hsign hashr hlshr, ← heval]
      exact hwide'.mono (Nat.zero_le _)
    · next k hashr hlshr =>
      refine .pure ⟨h1, hwide, ?_⟩
      rw [rightWord_some hsign hashr hlshr, ← hconst]
      exact congrArg (extendConstant ext) hr

/-- An operation that leaves its result in a register. -/
private theorem emit_finishes {m : Pseudo} {x : Option Word} (hdst : m.dst? = some d) (hobject : m.object? = none)
    (hresult : m.result st = x) : Finishes Pseudo.evalAll (emit m) cx st fun cx' st? =>
      cx'.values = cx.values ∧ st?.map (fun st' => st'.regs d) = x := by
  have hcommit (w : Word) : (m.commit st w).regs d = w := by
    simp only [Pseudo.commit, hobject, hdst, Store.regs_set_self]
  refine ⟨_, [m], rfl, rfl, rfl, ?_⟩
  rw [Pseudo.evalAll_cons, show (Pseudo.evalAll · []) = some from rfl, Option.bind_fun_some]
  simp only [Pseudo.eval, hresult, Option.map_map, Function.comp_def, hcommit, Option.map_id']

def ComputesInto (op : Ir.BinOp) (d : Reg) (wl wr : Word) (values : List (Ir.Value × Reg)) (cx' : Context)
    (st? : Option Store) : Prop :=
  cx'.values = values ∧ st?.map (fun st' => st'.regs d) = op.eval wl wr

section Operations

variable (hl : Has 0 cx st l wl) (hr : HasSource cx st src wr)
include hl hr

private theorem emitAlu_finishes {alu : AluOp} (halu : aluOp? op = some alu) :
    Finishes Pseudo.evalAll (emitAlu alu d l src) cx st (ComputesInto op d wl wr cx.values) := by
  unfold ComputesInto
  rw [aluOp?_eval halu, ← hl.word, ← hr.eval]
  cases src with
  | reg r => exact emit_finishes rfl rfl rfl
  | imm k =>
    simp only [emitAlu]
    split
    · next hsub =>
      refine emit_finishes rfl rfl ?_
      rw [hsub.1]
      simp only [Pseudo.result, AluOp.eval, Source.eval, BitVec.sub_eq_add_neg]
    · exact emit_finishes rfl rfl rfl

private theorem shift_finishes {kind : ShiftKind} (hkind : shiftKind? op = some kind) :
    Finishes Pseudo.evalAll (emit (.shift kind d l src.amount)) cx st (ComputesInto op d wl wr cx.values) := by
  unfold ComputesInto
  rw [shiftKind?_eval hkind, ← hl.word, ← hr.eval, ← amount_eval]
  exact emit_finishes rfl rfl rfl

private theorem mulDiv_finishes {mulDiv : MulDivOp} (hmul : mulDivOp? op = some mulDiv) :
    Finishes Pseudo.evalAll (do emit (.mulDiv mulDiv d l (← src.inReg))) cx st (ComputesInto op d wl wr cx.values) := by
  unfold ComputesInto
  rw [mulDivOp?_eval hmul]
  refine (inReg_makes hr).finishes sequential_evalAll fun r cx1 st1 ⟨h1, hr⟩ => ?_
  rw [← h1.values]
  refine emit_finishes rfl rfl ?_
  rw [Pseudo.result, (hl.later h1).word, hr.word]

end Operations

end Steps

section Binary

variable {f : Ir.Function} {cx : Context} {st : Store} {ty : Ir.Ty} {op : Ir.BinOp} {dst lhs : Ir.Value}
  {rhs : Ir.Operand}

theorem legal_narrow {act : Action} (h : isNarrow ty = true) (hlegal : legal (.binary op) ty = .ok act) :
    act = .expand ∧ binaryAction? op ty = some .expand := by
  cases ty with
  | i8 | i16 => cases op <;> cases hlegal <;> exact ⟨rfl, rfl⟩
  | _ => cases h

theorem source_makes (hv : Valid cx) (hrhs : ∀ v ∈ rhs.values, ∃ ty, f.valueType v = .ok ty) :
    Makes (source f rhs) cx st fun src cx' st' => Valid cx' ∧ st' = st ∧
      (∀ u q, cx.values.lookup u = some q → cx'.values.lookup u = some q) ∧
      (∀ v ∈ rhs.values, ∃ r, cx'.values.lookup v = some r) ∧ HasSource cx' st src (rhs.eval (cx'.words st)) := by
  cases rhs with
  | imm k => exact .pure ⟨hv, rfl, fun _ _ => id, by simp [Ir.Operand.values], rfl⟩
  | value v =>
    obtain ⟨_, hty⟩ := hrhs v (by simp [Ir.Operand.values])
    refine (reg_makes hv hty).bind ?_
    rintro r cx' _ ⟨hv', hr, hkeep, rfl⟩
    refine .pure ⟨hv', rfl, hkeep, by simpa [Ir.Operand.values] using ⟨r, hr⟩, ?_⟩
    rw [Ir.Operand.eval, cx'.words_eq hr]
    exact hv'.has hr

def binarySources (lhs : Ir.Value) (rhs : Ir.Operand) : List Ir.Value := lhs :: rhs.values

def lowResult (ty : Ir.Ty) (dst : Ir.Value) (cx' : Context) (st? : Option Store) : Option (BitVec ty.bits) :=
  st?.map fun st' => ty.low (cx'.words st' dst)

private theorem binary_finishes (st : Store) (hv : Valid cx) (hdst : f.valueType dst = .ok ty) (h : isNarrow ty = true)
    {act : Action} (hlegal : legal (.binary op) ty = .ok act)
    (hsources : ∀ v ∈ binarySources lhs rhs, ∃ ty, f.valueType v = .ok ty) :
    Finishes Pseudo.evalAll (binary f op dst lhs rhs) cx st fun cx' st? =>
      (∀ v ∈ dst :: binarySources lhs rhs, ∃ r, cx'.values.lookup v = some r) ∧
      lowResult ty dst cx' st? = op.evalAt (ty.low (cx'.words st lhs)) (ty.low (rhs.eval (cx'.words st))) := by
  simp only [binarySources, List.forall_mem_cons] at hsources ⊢
  obtain ⟨⟨_, hlhs⟩, hrhs⟩ := hsources
  obtain ⟨rfl, haction⟩ := legal_narrow h hlegal
  unfold binary
  rw [lift_bind hdst, lift_bind hlegal]
  refine (reg_makes hv hdst).finishes sequential_evalAll ?_
  rintro d cx1 _ ⟨hv1, hd, -, rfl⟩
  refine (reg_makes hv1 hlhs).finishes sequential_evalAll ?_
  rintro l cx2 _ ⟨hv2, hl, hkeep2, rfl⟩
  refine (source_makes hv2 hrhs).finishes sequential_evalAll ?_
  rintro src cx3 st ⟨hv3, rfl, hkeep3, hregs, hsrc⟩
  replace hd := hkeep3 _ _ (hkeep2 _ _ hd)
  replace hl := hkeep3 _ _ hl
  rw [if_pos rfl]
  refine (widen_makes h (hv3.has hl) hsrc).finishes sequential_evalAll ?_
  rintro ⟨wide, src'⟩ cx4 st4 ⟨h4, hwide, hsrc'⟩
  refine Finishes.mono (P := ComputesInto op d (leftWord op ty (st.regs l)) (rightWord op ty (rhs.eval (cx3.words st)))
    cx4.values) ?_ ?_
  · dsimp only
    split
    · next halu => exact emitAlu_finishes hwide hsrc' halu
    · next hkind => exact shift_finishes hwide hsrc' hkind
    · next hmul => exact mulDiv_finishes hwide hsrc' hmul
    · cases op <;> contradiction
  rintro cx5 st? ⟨hvalues, hresult⟩
  replace hvalues := hvalues.trans h4.values
  refine ⟨by rw [hvalues]; exact ⟨⟨d, hd⟩, ⟨l, hl⟩, hregs⟩, ?_⟩
  have hwords (st' : Store) : cx5.words st' dst = st'.regs d := cx5.words_eq (by rw [hvalues, hd])
  calc lowResult ty dst cx5 st?
    _ = (st?.map fun st' => st'.regs d).map ty.low := by
      simp only [lowResult, hwords, Option.map_map, Function.comp_def]
    _ = op.evalAt (ty.low (cx3.words st lhs)) (ty.low (rhs.eval (cx3.words st))) := by
      rw [hresult, low_eval h haction, cx3.words_eq hl]
    _ = op.evalAt (ty.low (cx5.words st lhs)) (ty.low (rhs.eval (cx5.words st))) := by rw [cx3.words_congr hvalues]

structure NarrowBinary (ty : Ir.Ty) (op : Ir.BinOp) (dst lhs : Ir.Value) (rhs : Ir.Operand) (cx' : Context)
    (ops : List Pseudo) : Prop where
  registers : ∀ v ∈ dst :: binarySources lhs rhs, ∃ r, cx'.values.lookup v = some r
  /-- The low bits of the result are those of the operation on the low bits of the operands. -/
  result : ∀ st, lowResult ty dst cx' (Pseudo.evalAll st ops) =
    op.evalAt (ty.low (cx'.words st lhs)) (ty.low (rhs.eval (cx'.words st)))
  /-- What stands above the low bits of the operands does not matter. -/
  upper : ∀ st st', (∀ v ∈ binarySources lhs rhs, ty.low (cx'.words st v) = ty.low (cx'.words st' v)) →
    lowResult ty dst cx' (Pseudo.evalAll st ops) = lowResult ty dst cx' (Pseudo.evalAll st' ops)
  /-- Only a division by zero in the low bits has no result. -/
  faults : ∀ st, Pseudo.evalAll st ops = none ↔
    op.divides = true ∧ ty.low (rhs.eval (cx'.words st)) = BitVec.ofNat ty.bits 0

/-- A binary operation that the target accepts on a narrow type is selected as operations that compute the low bits of
its result from the low bits of its operands, whatever stands above them in the registers, and that fault where the low
bits of a divisor are zero and nowhere else. -/
theorem binary_narrow {act : Action} (hv : Valid cx) (hdst : f.valueType dst = .ok ty) (h : isNarrow ty = true)
    (hlegal : legal (.binary op) ty = .ok act)
    (hsources : ∀ v ∈ binarySources lhs rhs, ∃ ty, f.valueType v = .ok ty) :
    ∃ cx' ops, (binary f op dst lhs rhs).run cx = .ok ((), cx') ∧ cx'.out = cx.out ++ ops ∧
      NarrowBinary ty op dst lhs rhs cx' ops := by
  obtain ⟨cx', ops, hrun, hout, hall⟩ := Finishes.uniform fun st => binary_finishes st hv hdst h hlegal hsources
  have hresult (st : Store) := (hall st).2
  refine ⟨cx', ops, hrun, hout, (hall ⟨fun _ => 0#32, fun _ => 0#32⟩).1, hresult, fun st st' hlow => ?_, fun st => ?_⟩
  · have hrhs : ty.low (rhs.eval (cx'.words st)) = ty.low (rhs.eval (cx'.words st')) := by
      cases rhs with
      | value v => exact hlow v (by simp [binarySources, Ir.Operand.values])
      | imm k => rfl
    rw [hresult, hresult, hlow lhs (by simp [binarySources]), hrhs]
  · rw [← evalAt_eq_none_iff h (legal_narrow h hlegal).2, ← hresult, lowResult, Option.map_eq_none_iff]

def bytesFunction : Ir.Function where
  name := "bytes"
  valueTypes := [.i8, .i8]

def byteStore : Store := ⟨fun _ => 0xABCDEF80#32, fun _ => 0#32⟩

/-- The least byte divided by a constant whose low byte is minus one wraps around to itself. -/
theorem binary_narrow_minimum : ∃ cx' ops,
    (binary bytesFunction .sdiv 1 0 (.imm 0x1FF#32)).run ⟨.empty "bytes" 1, {}, [], []⟩ = .ok ((), cx') ∧
      cx'.out = ops ∧ cx'.words byteStore 0 = 0xABCDEF80#32 ∧
      lowResult .i8 1 cx' (Pseudo.evalAll byteStore ops) = some 0x80#8 := by
  have hsources (v : Ir.Value) (hv : v ∈ binarySources 0 (.imm 0x1FF#32)) :
      ∃ ty, bytesFunction.valueType v = .ok ty := by
    obtain rfl : v = 0 := by simpa [binarySources, Ir.Operand.values] using hv
    exact ⟨.i8, rfl⟩
  obtain ⟨cx', ops, hrun, hout, hbinary⟩ := @binary_narrow bytesFunction ⟨.empty "bytes" 1, {}, [], []⟩ .i8 .sdiv 1 0
    (.imm 0x1FF#32) .expand ⟨fun _ _ h => (by cases h), fun _ _ _ h => (by cases h)⟩ rfl rfl rfl hsources
  obtain ⟨r, hr⟩ := hbinary.registers 0 (by simp [binarySources])
  have hword : cx'.words byteStore 0 = 0xABCDEF80#32 := cx'.words_eq hr
  have hresult := hbinary.result byteStore
  rw [hword, Ir.Operand.eval] at hresult
  exact ⟨cx', ops, hrun, hout, hword, hresult.trans rfl⟩

end Binary

end Selection

end DirectPage
