import DirectPage.Frame
import DirectPage.Proofs.Operands
import DirectPage.Simulator.Step

/-! What pseudo-operations on words compute from registers and frame objects. -/
namespace DirectPage

structure Store where
  regs : Reg → Word
  objects : Nat → Word

namespace Store

def set (st : Store) (r : Reg) (w : Word) : Store :=
  { st with regs := fun s => if s = r then w else st.regs s }

def put (st : Store) (i : Nat) (w : Word) : Store :=
  { st with objects := fun j => if j = i then w else st.objects j }

variable (st : Store)

@[simp] theorem objects_set (r : Reg) (w : Word) : (st.set r w).objects = st.objects := rfl

@[simp] theorem regs_put (i : Nat) (w : Word) : (st.put i w).regs = st.regs := rfl

@[simp] theorem regs_set_self (r : Reg) (w : Word) : (st.set r w).regs r = w := if_pos rfl

theorem regs_set_ne {r s : Reg} (h : s ≠ r) (w : Word) : (st.set r w).regs s = st.regs s := if_neg h

@[simp] theorem objects_put_self (i : Nat) (w : Word) : (st.put i w).objects i = w := if_pos rfl

theorem objects_put_ne {i j : Nat} (h : j ≠ i) (w : Word) : (st.put i w).objects j = st.objects j := if_neg h

end Store

def AluOp.eval (op : AluOp) (l r : Word) : Word :=
  match op with
  | add => l + r
  | sub => l - r
  | and => l &&& r
  | or => l ||| r
  | xor => l ^^^ r

def MulDivOp.eval (op : MulDivOp) (l r : Word) : Option Word :=
  match op with
  | mul => some (l * r)
  | mulHs => some (mulSigned l r).2
  | mulHu => some (mulUnsigned l r).2
  | sdiv => if r = 0#32 then none else some (l.sdiv r)
  | udiv => if r = 0#32 then none else some (l / r)
  | srem => if r = 0#32 then none else some (l.srem r)
  | urem => if r = 0#32 then none else some (l % r)

def ShiftKind.eval (kind : ShiftKind) (w : Word) (n : Nat) : Word :=
  match kind with
  | shl => w <<< n
  | lshr => w >>> n
  | ashr => w.sshiftRight n
  | rotl => w.rotateLeft n
  | rotr => w.rotateRight n

def UnaryOp.eval (op : UnaryOp) (w : Word) : Word :=
  match op with
  | neg => -w
  | not => ~~~w
  | sext8 => ExtendOp.sext8.eval w
  | sext16 => ExtendOp.sext16.eval w
  | zext8 => ExtendOp.zext8.eval w
  | zext16 => ExtendOp.zext16.eval w
  | clz => w.leadingZeros
  | ctz => w.trailingZeros
  | popcnt => w.onesCount

def ShiftAmount.eval (regs : Reg → Word) : ShiftAmount → Nat
  | imm n => n.toNat % 32
  | reg r => (regs r).toNat % 32

def CmpRhs.eval (regs : Reg → Word) : CmpRhs Reg → Word
  | reg r => regs r
  | imm k => k

variable {α β γ δ : Type} {x : Option α} {R : α → β → Prop} {y : Option β} {n k : Nat}

theorem rel_bind {S : γ → δ → Prop} {f : α → Option γ} {g : β → Option δ} (h : Option.Rel R x y)
    (hfg : ∀ a b, R a b → Option.Rel S (f a) (g b)) : Option.Rel S (x.bind f) (y.bind g) := by
  cases h with
  | none => exact .none
  | some hab => exact hfg _ _ hab

theorem rel_mono {S : α → β → Prop} (h : Option.Rel R x y) (hRS : ∀ a b, R a b → S a b) : Option.Rel S x y := by
  cases h with
  | none => exact .none
  | some hab => exact .some (hRS _ _ hab)

theorem rel_trans {S : β → γ → Prop} {T : α → γ → Prop} {z : Option γ} (h : Option.Rel R x y) (h' : Option.Rel S y z)
    (hRS : ∀ a b c, R a b → S b c → T a c) : Option.Rel T x z := by
  cases h with
  | none => cases h' with | none => exact .none
  | some hab => cases h' with | some hbc => exact .some (hRS _ _ _ hab hbc)

theorem rel_map {R : γ → δ → Prop} {f : α → γ} {g : β → δ} (h : Option.Rel (fun a b => R (f a) (g b)) x y) :
    Option.Rel R (x.map f) (y.map g) := by
  cases h with
  | none => exact .none
  | some hab => exact .some hab

namespace Pseudo

def isWordOp : Pseudo → Bool
  | loadImm .. | copy .. | alu .. | aluImm .. | mulDiv .. | shift .. | unary ..
  | selectCc (.int ..) .. => true
  | load _ .word .zero (.frame _) offset | store _ .word (.frame _) offset => offset == 0#32
  | _ => false

def result (st : Store) : Pseudo → Option Word
  | loadImm _ value => some value
  | copy _ src | store src _ _ _ => some (st.regs src)
  | alu op _ lhs rhs => some (op.eval (st.regs lhs) (st.regs rhs))
  | aluImm op _ lhs imm => some (op.eval (st.regs lhs) imm)
  | mulDiv op _ lhs rhs => op.eval (st.regs lhs) (st.regs rhs)
  | shift kind _ src amount => some (kind.eval (st.regs src) (amount.eval st.regs))
  | unary op _ src => some (op.eval (st.regs src))
  | load _ _ _ (.frame index) _ => some (st.objects index)
  | selectCc (.int cc lhs rhs) _ onTrue onFalse =>
    some (if cc.holds (st.regs lhs) (rhs.eval st.regs) then st.regs onTrue else st.regs onFalse)
  | _ => none

def source? : Pseudo → Option Nat
  | load _ _ _ (.frame index) _ => some index
  | _ => none

def object? : Pseudo → Option Nat
  | store _ _ (.frame index) _ => some index
  | _ => none

def commit (m : Pseudo) (st : Store) (w : Word) : Store :=
  match m.object?, m.dst? with
  | some index, _ => st.put index w
  | none, some dst => st.set dst w
  | none, none => st

def eval (st : Store) (m : Pseudo) : Option Store := (m.result st).map (m.commit st)

def evalAll : Store → List Pseudo → Option Store
  | st, [] => some st
  | st, m :: rest => (m.eval st).bind (evalAll · rest)

@[simp] theorem evalAll_nil (st : Store) : evalAll st [] = some st := rfl

@[simp] theorem evalAll_cons (st : Store) (m : Pseudo) (ms : List Pseudo) :
    evalAll st (m :: ms) = (m.eval st).bind (evalAll · ms) := rfl

theorem evalAll_append (st : Store) (ms ns : List Pseudo) :
    evalAll st (ms ++ ns) = (evalAll st ms).bind (evalAll · ns) := by
  induction ms generalizing st with
  | nil => rfl
  | cons m ms ih =>
    rw [List.cons_append, evalAll_cons, evalAll_cons, Option.bind_assoc]
    exact Option.bind_congr fun st' _ => ih st'

variable {m : Pseudo}

/-- A word operation has exactly one place for its result. -/
theorem target_of_isWordOp (h : m.isWordOp = true) :
    (∃ index, m.object? = some index ∧ m.dst? = none) ∨ ∃ dst, m.object? = none ∧ m.dst? = some dst := by
  cases m with
  | store src width base offset =>
    cases base with
    | frame index => exact .inl ⟨index, rfl, rfl⟩
    | _ => cases width <;> cases h
  | _ => first | exact .inr ⟨_, rfl, rfl⟩ | cases h

section Rename

variable {g : Reg → Reg} {d : Reg} {st st' : Store}

theorem isWordOp_mapRegs (g : Reg → Reg) (m : Pseudo) : (m.mapRegs g).isWordOp = m.isWordOp := by
  cases m with
  | load dst width ext base => cases width <;> cases ext <;> cases base <;> rfl
  | store src width base => cases width <;> cases base <;> rfl
  | selectCc cmp => rcases cmp with ⟨_, _, _ | _⟩ | _ <;> rfl
  | call target => cases target <;> rfl
  | _ => rfl

theorem isWordOp_withDst (d : Reg) (m : Pseudo) : (m.withDst d).isWordOp = m.isWordOp := by
  cases m with
  | load dst width ext base => cases width <;> cases ext <;> cases base <;> rfl
  | selectCc cmp => cases cmp <;> rfl
  | _ => rfl

theorem object?_mapRegs (g : Reg → Reg) (m : Pseudo) : (m.mapRegs g).object? = m.object? := by
  cases m with
  | store _ _ x | call x => cases x <;> rfl
  | _ => rfl

theorem source?_mapRegs (g : Reg → Reg) (m : Pseudo) : (m.mapRegs g).source? = m.source? := by
  cases m with
  | load _ _ _ x | call x => cases x <;> rfl
  | _ => rfl

theorem source?_withDst (d : Reg) (m : Pseudo) : (m.withDst d).source? = m.source? := by
  cases m with
  | load dst width ext base => cases base <;> rfl
  | _ => rfl

theorem object?_withDst (d : Reg) (m : Pseudo) : (m.withDst d).object? = m.object? := by
  cases m <;> rfl

theorem dst?_mapRegs (g : Reg → Reg) (m : Pseudo) : (m.mapRegs g).dst? = m.dst?.map g := by
  cases m with
  | call target => cases target <;> rfl
  | _ => rfl

theorem dst?_withDst (d : Reg) (m : Pseudo) : (m.withDst d).dst? = m.dst?.map fun _ => d := by
  cases m <;> rfl

/-- A renamed operation computes from the registers that the names stand for. -/
theorem result_mapRegs (h : m.isWordOp = true) (st : Store) :
    (m.mapRegs g).result st = m.result { st with regs := fun r => st.regs (g r) } := by
  cases m with
  | shift _ _ _ x | load _ _ _ x => cases x <;> rfl
  | selectCc cmp => rcases cmp with ⟨_, _, _ | _⟩ | _ <;> rfl
  | call => cases h
  | _ => rfl

theorem result_withDst (d : Reg) (m : Pseudo) (st : Store) : (m.withDst d).result st = m.result st := by
  cases m with
  | load _ _ _ x | selectCc x => cases x <;> rfl
  | _ => rfl

/-- Only registers and objects that are read matter. -/
theorem result_congr (h : m.isWordOp = true) (hu : ∀ u ∈ m.uses, st.regs u = st'.regs u)
    (ho : ∀ i, m.source? = some i → st.objects i = st'.objects i) : m.result st = m.result st' := by
  cases m with
  | shift kind dst src amount =>
    cases amount <;> simp_all [result, uses, ShiftAmount.regs, ShiftAmount.eval]
  | load dst width ext base offset => cases base <;> simp_all [result, source?]
  | selectCc cmp dst onTrue onFalse =>
    rcases cmp with ⟨cc, lhs, rhs⟩ | ⟨cc, prec, lhs, rhs⟩
    · have hr : rhs.eval st.regs = rhs.eval st'.regs := by
        cases rhs with
        | reg r => exact hu r (by simp [uses, Compare.regs])
        | imm k => rfl
      have hl : st.regs lhs = st'.regs lhs := hu lhs (by cases rhs <;> simp [uses, Compare.regs])
      simp only [result, hl, hr, hu onTrue (by simp [uses]), hu onFalse (by simp [uses])]
    · cases h
  | _ => simp_all [result, uses]

theorem regs_mapRegs (g : Reg → Reg) (m : Pseudo) : (m.mapRegs g).regs = m.regs.map g := by
  cases m with
  | shift _ _ _ x | load _ _ _ x | store _ _ x | fload _ _ x | fstore _ _ x | call x => cases x <;> rfl
  | selectCc cmp | brCc cmp => rcases cmp with ⟨_, _, _ | _⟩ | _ <;> rfl
  | _ => rfl

theorem mem_regs_withDst {r : Reg} (hr : r ∈ (m.withDst d).regs) : r = d ∨ r ∈ m.regs := by
  cases m <;> simp only [withDst, regs, List.mem_append, List.mem_cons] at hr ⊢ <;> grind

theorem mem_regs_of_dst? (hd : m.dst? = some d) : d ∈ m.regs := by
  cases m <;> simp only [dst?, Option.some.injEq, reduceCtorEq] at hd <;> simp [regs, hd]

theorem mem_regs_of_mem_uses (h : m.isWordOp = true) {u : Reg} (hu : u ∈ m.uses) : u ∈ m.regs := by
  cases m <;> simp only [isWordOp, Bool.false_eq_true, uses, regs, List.mem_append, List.mem_cons] at h hu ⊢ <;>
    grind

theorem defs_of_isWordOp (h : m.isWordOp = true) : m.defs = m.dst?.toList := by
  cases m <;> first | rfl | cases h

end Rename

end Pseudo

def Reg.Below (n : Nat) : Reg → Prop
  | virt v => v < n
  | phys _ => True

theorem Reg.Below.mono (h : n ≤ k) {r : Reg} (hr : r.Below n) : r.Below k := by
  cases r with
  | virt v => exact Nat.lt_of_lt_of_le hr h
  | phys r => trivial

def FrameObject.isWord : FrameObject → Bool
  | .local size _ | .incoming _ size => size == wordSize
  | .returnAddress => false

/-- A word operation over `n` virtual registers, argument registers and objects of a word. Only local objects
are written. -/
structure Pseudo.Fits (objects : List FrameObject) (n : Nat) (m : Pseudo) : Prop where
  word : m.isWordOp = true
  below : ∀ r ∈ m.regs, r.Below n
  args : ∀ r, .phys r ∈ m.regs → r ∈ intArgRegs
  source : ∀ i, m.source? = some i → ∃ o, objects[i]? = some o ∧ o.isWord = true
  object : ∀ i, m.object? = some i → ∃ align, objects[i]? = some (.local wordSize align)

theorem Pseudo.Fits.mono {objects more : List FrameObject} {m : Pseudo} (h : m.Fits objects n) (hn : n ≤ k) :
    m.Fits (objects ++ more) k where
  word := h.word
  below r hr := (h.below r hr).mono hn
  args := h.args
  source i hi := by
    obtain ⟨o, ho, hw⟩ := h.source i hi
    exact ⟨o, by rw [List.getElem?_append_left (List.getElem?_eq_some_iff.mp ho).1, ho], hw⟩
  object i hi := by
    obtain ⟨align, ho⟩ := h.object i hi
    exact ⟨align, by rw [List.getElem?_append_left (List.getElem?_eq_some_iff.mp ho).1, ho]⟩

/-- A function of one block of word operations that returns in `rs`. -/
structure Routine.Plain (f : Routine) (objects : List FrameObject) (ms : List Pseudo) (rs : List Register) :
    Prop where
  blocks : f.blocks = [ms ++ [Pseudo.ret rs]]
  gpr : ∀ cls ∈ f.classes, cls = .gpr
  pool : f.pool = []
  fits : ∀ m ∈ ms, m.Fits objects f.numVRegs

end DirectPage
