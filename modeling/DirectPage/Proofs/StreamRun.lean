import DirectPage.Proofs.ExecFlags
import DirectPage.Proofs.Writes

/-! Streams as programs. The program counter is a place, branches go to the places that their labels
are bound to, label operands have values of their own, and a call is a single step. -/
namespace DirectPage

def Instruction.taken (flags : Flags) : Instruction → Bool
  | branch cond _ | branchLong cond _ => cond.taken flags
  | _ => true

inductive Event
  | write (addr : Word) (bytes : List UInt8)
  | call (target : Word)
  deriving DecidableEq, Repr

inductive Exit
  | returned
  | trapped
  | faulted (e : Failure)
  /-- Behind the last instruction. -/
  | ranOff
  /-- A branch that leads to no place. -/
  | lost

inductive Status
  | running (i : Nat) (m : Machine)
  | ended (x : Exit) (m : Machine)

/-- What a stream runs in: the values of labels, and the effect of calls, which does not depend on
the zero and negative flag. -/
structure World where
  token : Nat → Word
  call : Word → Machine → Checked Machine
  call_alike : ∀ target (m m' : Machine), m.forget = m'.forget →
    Machine.Alike (call target m) (call target m')

namespace World

def value (w : World) : Imm → Imm
  | .label l => .value (w.token l)
  | imm => imm

def callTo (w : World) (i : Nat) (target : Word) (m : Machine) : List Event × Status :=
  match w.call target m with
  | .ok m => ([.call target], .running (i + 1) m)
  | .error e => ([.call target], .ended (.faulted e) m)

def written (m m' : Machine) (instr : Instruction) : List Event :=
  match m.destination? instr with
  | some (addr, n) => [.write addr (m'.memory.bytesAt addr.toNat n)]
  | none => []

def perform (w : World) (i : Nat) (instr : Instruction) (m : Machine) : List Event × Status :=
  match instr.flow with
  | .call target =>
    match m.operand (w.value target) with
    | .ok target => w.callTo i target m
    | .error e => ([], .ended (.faulted e) m)
  | .callVia slot => w.callTo i (m.memory.word slot.toNat) m
  | .ret =>
    match m.exec instr with
    | .ok m => ([], .ended .returned m)
    | .error e => ([], .ended (.faulted e) m)
  | .trap => ([], .ended .trapped m)
  | .away => ([], .ended .lost m)
  | .next =>
    match m.exec (instr.mapOperand w.value) with
    | .ok m' => (written m m' (instr.mapOperand w.value), .running (i + 1) m')
    | .error e => ([], .ended (.faulted e) m)

end World

namespace Stream

def branch (s : Stream) (i label : Nat) (instr : Instruction) (m : Machine) : Status :=
  if instr.taken m.flags then
    match s.labelPlace? label with
    | some p => .running p m
    | none => .ended .lost m
  else .running (i + 1) m

def step (s : Stream) (w : World) : Status → List Event × Status
  | .ended x m => ([], .ended x m)
  | .running i m =>
    match s.instructions[i]? with
    | none => ([], .ended .ranOff m)
    | some instr =>
      match s.fixups.lookup i with
      | some label => ([], s.branch i label instr m)
      | none => w.perform i instr m

def run (s : Stream) (w : World) : Nat → Status → List Event × Status
  | 0, st => ([], st)
  | n + 1, st => ((s.step w st).1 ++ (s.run w n (s.step w st).2).1, (s.run w n (s.step w st).2).2)

theorem run_ended (s : Stream) (w : World) (n : Nat) (x : Exit) (m : Machine) :
    (s.run w n (.ended x m)).2 = .ended x m := by
  induction n with
  | zero => rfl
  | succ n ih => exact ih

end Stream

theorem Machine.Alike.cases {x y : Checked Machine} (h : Machine.Alike x y) :
    (∃ e, x = .error e ∧ y = .error e) ∨ ∃ m m', x = .ok m ∧ y = .ok m' ∧ m.forget = m'.forget := by
  cases x with
  | error e =>
    cases y with
    | error e' =>
      cases h
      exact .inl ⟨e, rfl, rfl⟩
    | ok m' => cases h
  | ok m =>
    cases y with
    | error e => cases h
    | ok m' => exact .inr ⟨m, m', rfl, rfl, Except.ok.inj h⟩

inductive Status.Beside (i j : Nat) (P : Machine → Machine → Prop) : Status → Status → Prop
  | running {m m' : Machine} : m.forget = m'.forget → P m m' → Beside i j P (.running i m) (.running j m')
  | ended {x : Exit} {m m' : Machine} : m.forget = m'.forget → Beside i j P (.ended x m) (.ended x m')

section Flow

variable {i : Instruction}

theorem Instruction.flow_of_isCompare (h : i.isCompare = true) : i.flow = .next := by
  unfold isCompare at h
  split at h
  · rfl
  · rfl
  · rfl
  · cases h

theorem Instruction.isCompare_mapOperand (f : Imm → Imm) : (i.mapOperand f).isCompare = i.isCompare := by
  cases i with
  | immediate op value => cases op <;> rfl
  | _ => rfl

theorem Instruction.flow_of_isRedundant {cur : Instruction} (h : isRedundant i cur = true) :
    i.flow = .next ∧ ∀ f, i.mapOperand f = i := by
  obtain ⟨x, rfl, -⟩ | ⟨rfl, -⟩ := isRedundant_cases h <;> exact ⟨rfl, fun _ => rfl⟩

theorem Instruction.mapOperand_id (i : Instruction) : i.mapOperand id = i := by cases i <;> rfl

theorem Instruction.eq_of_flow_ret (h : i.flow = .ret) : i = .implied .rts := by
  cases i with
  | implied op =>
    cases op with
    | rts => rfl
    | _ => cases h
  | absolute op imm | direct op slot => cases op <;> cases h
  | _ => cases h

theorem Instruction.flow_mapOperand (h : i.flow = .next) (f : Imm → Imm) : (i.mapOperand f).flow = .next := by
  cases i with
  | absolute op imm => cases op <;> first | rfl | cases h
  | _ => exact h

end Flow

section Perform

variable {w : World} {m m' : Machine} (h : m.forget = m'.forget)
include h

private theorem forget_eq_memory : m.memory = m'.memory := (congrArg Machine.memory h :)

private theorem callTo_alike (i j : Nat) (target : Word) {P : Machine → Machine → Prop}
    (hP : ∀ m1 m1', w.call target m = .ok m1 → w.call target m' = .ok m1' → P m1 m1') :
    (w.callTo i target m).1 = (w.callTo j target m').1 ∧
      Status.Beside (i + 1) (j + 1) P (w.callTo i target m).2 (w.callTo j target m').2 := by
  rcases (w.call_alike target m m' h).cases with ⟨e, hx, hy⟩ | ⟨m1, m1', hx, hy, hf⟩
  · rw [World.callTo, World.callTo, hx, hy]
    exact ⟨rfl, .ended h⟩
  · rw [World.callTo, World.callTo, hx, hy]
    exact ⟨rfl, .running hf (hP m1 m1' hx hy)⟩

private theorem written_alike {m1 m1' : Machine} (h1 : m1.forget = m1'.forget) (instr : Instruction) :
    World.written m m1 instr = World.written m' m1' instr := by
  have hd : m.destination? instr = m'.destination? instr :=
    (congrArg (Machine.destination? · instr) h :)
  rw [World.written, World.written, hd, forget_eq_memory h1]

/-- Machines that differ in the zero and negative flag at most do the same. They come out equal if
they were equal before, or if the instruction is a compare. -/
theorem World.perform_alike (i j : Nat) (instr : Instruction) :
    (w.perform i instr m).1 = (w.perform j instr m').1 ∧
      Status.Beside (i + 1) (j + 1) (fun m1 m1' => (m = m' ∨ instr.isCompare = true → m1 = m1') ∧
          ∀ cur, isRedundant instr cur = true → Machine.Alike (m1.exec cur) (.ok m1))
        (w.perform i instr m).2 (w.perform j instr m').2 := by
  have hother (hflow : instr.flow ≠ .next) {f : Machine → Checked Machine} (m1 m1' : Machine)
      (h1 : f m = .ok m1) (h1' : f m' = .ok m1') :
      (m = m' ∨ instr.isCompare = true → m1 = m1') ∧
        ∀ cur, isRedundant instr cur = true → Machine.Alike (m1.exec cur) (.ok m1) := by
    refine ⟨?_, fun cur hr => absurd (Instruction.flow_of_isRedundant hr).1 hflow⟩
    rintro (rfl | hc)
    · exact Except.ok.inj (h1.symm.trans h1')
    · exact absurd (Instruction.flow_of_isCompare hc) hflow
  unfold perform
  cases hflow : instr.flow with
  | call target =>
    have ho : m.operand (w.value target) = m'.operand (w.value target) :=
      (congrArg (Machine.operand · (w.value target)) h :)
    dsimp only
    rw [ho]
    cases m'.operand (w.value target) with
    | error e => exact ⟨rfl, .ended h⟩
    | ok target => exact callTo_alike h i j target (hother (by simp [hflow]))
  | callVia slot =>
    dsimp only
    rw [forget_eq_memory h]
    exact callTo_alike h i j _ (hother (by simp [hflow]))
  | ret =>
    rcases (Machine.exec_alike h (.inr (Instruction.eq_of_flow_ret hflow))).cases with
      ⟨e, hx, hy⟩ | ⟨m1, m1', hx, hy, hf⟩
    · simp only [hx, hy]
      exact ⟨trivial, .ended h⟩
    · simp only [hx, hy]
      exact ⟨trivial, .ended hf⟩
  | trap | away => exact ⟨rfl, .ended h⟩
  | next =>
    rcases (Machine.exec_alike h (.inl (Instruction.flow_mapOperand hflow w.value))).cases with
      ⟨e, hx, hy⟩ | ⟨m1, m1', hx, hy, hf⟩
    · simp only [hx, hy]
      exact ⟨trivial, .ended h⟩
    · simp only [hx, hy]
      refine ⟨written_alike h hf _, .running hf ⟨?_, fun cur hr => ?_⟩⟩
      · rintro (rfl | hc)
        · exact Except.ok.inj (hx.symm.trans hy)
        · rw [Machine.exec_compare h (by rw [Instruction.isCompare_mapOperand, hc])] at hx
          exact Except.ok.inj (hx.symm.trans hy)
      · rw [(Instruction.flow_of_isRedundant hr).2] at hx
        exact Machine.exec_redundant hr hx

end Perform

/-- The same events, and either both runs are under way or both have come to the same end, with
machines that differ in the zero and negative flag at most. -/
def SameOutcome (r r' : List Event × Status) : Prop :=
  r.1 = r'.1 ∧ match r.2, r'.2 with
    | .running _ _, .running _ _ => True
    | .ended x m, .ended x' m' => x = x' ∧ m.forget = m'.forget
    | _, _ => False

/-- Whatever one stream does from its start, the other does too. -/
def Stream.Refines (s t : Stream) : Prop :=
  ∀ (w : World) (m : Machine) (n : Nat), ∃ k,
    SameOutcome (s.run w n (.running 0 m)) (t.run w k (.running 0 m))

/-- Streams that cannot be told apart from outside. -/
def Stream.Agree (s t : Stream) : Prop := s.Refines t ∧ t.Refines s

theorem SameOutcome.trans {r r' r'' : List Event × Status} (h : SameOutcome r r')
    (h' : SameOutcome r' r'') : SameOutcome r r'' := by
  refine ⟨h.1.trans h'.1, ?_⟩
  obtain ⟨-, h⟩ := h
  obtain ⟨-, h'⟩ := h'
  split at h <;> split at h' <;> simp_all

theorem SameOutcome.symm {r r' : List Event × Status} (h : SameOutcome r r') : SameOutcome r' r := by
  refine ⟨h.1.symm, ?_⟩
  obtain ⟨-, h⟩ := h
  split at h <;> simp_all

theorem SameOutcome.refl (r : List Event × Status) : SameOutcome r r := by
  refine ⟨rfl, ?_⟩
  cases r.2 <;> simp

namespace Stream.Agree

theorem refl (s : Stream) : s.Agree s :=
  ⟨fun _ _ n => ⟨n, .refl _⟩, fun _ _ n => ⟨n, .refl _⟩⟩

theorem symm {s t : Stream} (h : s.Agree t) : t.Agree s := ⟨h.2, h.1⟩

theorem trans {s t u : Stream} (h : s.Agree t) (h' : t.Agree u) : s.Agree u := by
  have hcomp {s t u : Stream} (h : s.Refines t) (h' : t.Refines u) : s.Refines u := by
    intro w m n
    obtain ⟨k, hk⟩ := h w m n
    obtain ⟨l, hl⟩ := h' w m k
    exact ⟨l, hk.trans hl⟩
  exact ⟨hcomp h.1 h'.1, hcomp h'.2 h.2⟩

end Stream.Agree

end DirectPage
