import DirectPage.Proofs.FunctionCode
import DirectPage.Proofs.Loaded

/-! A selection copies the register that its compare asks for, wherever it stands in a finished function and whichever
of its registers coincide.

Changes to a stream are followed into the code of the function that the stream is finished to: what they do by
themselves the code does from the address of their first instruction to the address behind their last. -/
namespace DirectPage

open Machine

namespace Stream

/-- A stream that goes on behind another, and leaves its instructions, its branches and its bound labels as they are. -/
structure Continues (s u : Stream) : Prop where
  blocks : u.blocks = s.blocks
  pool : u.pool = s.pool
  instructions : ∀ i < s.instructions.size, u.instructions[i]? = s.instructions[i]?
  fixups : ∀ i label, i < s.instructions.size → ((i, label) ∈ u.fixups ↔ (i, label) ∈ s.fixups)
  labels : ∀ (label : Nat) d, s.labels[label]? = some (some d) → u.labels[label]? = some (some d)

variable {s u : Stream} {as : List Action}

theorem Continues.acts (h : ∀ label d, s.labels[label]? = some (some d) → .define label ∉ as) :
    s.Continues (s.acts as) := by
  refine ⟨s.blocks_acts as, (s.acts_kept as).2, fun i hi => instructions_acts hi, fun i label hi => mem_fixups_acts hi,
    fun label d hl => ?_⟩
  replace h := h label d hl
  induction as generalizing s with
  | nil => exact hl
  | cons a as ih =>
    obtain ⟨hne, hrest⟩ := not_or.mp (List.mem_cons.not.mp h)
    refine ih ?_ hrest
    cases a with
    | emit | branch => exact hl
    | newLabel =>
      simp only [act, newLabel]
      rw [List.getElem?_append_left (List.getElem?_eq_some_iff.mp hl).1, hl]
    | define l =>
      simp only [act, define]
      rw [List.getElem?_set_ne fun he => hne (by rw [he]), hl]

theorem Built.labels_le (h : Built s) : s.blocks + s.pool.length ≤ s.labels.length := by
  have hpool (start : Nat) (pool : List (List UInt8)) : (poolLabels start pool).length = pool.length := by
    induction pool generalizing start with
    | nil => rfl
    | cons entry pool ih => simp [poolLabels, ih]
  induction h with
  | empty name blocks pool => simp [Stream.empty, hpool]
  | newLabel _ ih =>
    simp only [Stream.newLabel, List.length_append]
    omega
  | @bindLabel s t label _ hb ih =>
    simp only [Stream.bindLabel] at hb
    split at hb
    · cases hb
      simpa [Stream.define] using ih
    · cases hb
  | emit instr _ ih => exact ih
  | emitBranch cond label _ ih => exact ih
  | clean _ ih =>
    refine clean_keeps (P := fun s => s.blocks + s.pool.length ≤ s.labels.length) (fun s hs => ?_) _ ih
    change (s.retain s.keeps).blocks + (s.retain s.keeps).pool.length ≤ (s.retain s.keeps).labels.length
    rw [retain_eq]
    simpa using hs

/-- A label that was new is none of a constant. -/
theorem poolLabel?_ne (hs : s.Built) (hblocks : u.blocks = s.blocks) (hpool : u.pool = s.pool) {label : Nat}
    (hl : s.labels.length ≤ label) (j : Nat) : u.poolLabel? j ≠ some label := by
  have hle := hs.labels_le
  rw [poolLabel?, hblocks, hpool]
  split
  · intro he
    have := Option.some.inj he
    omega
  · intro he
    cases he

def spot (u : Stream) (e : EncodedFunction) (base : Nat) (code : AddressMap (Option Instruction) 32) (s : Stream) :
    Option Nat × Machine → Option Machine
  | (none, m) => some (m.placed (addressOf e base s.instructions.size) code)
  | (some label, m) => (u.labelPlace? label).map fun p => m.placed (addressOf e base p) code

section Follow

variable {s u : Stream} {e : EncodedFunction} {base : Nat} {code : AddressMap (Option Instruction) 32}
  {as : List Action} (hlaid : u.LaidOut e) (hat : e.IsAt base code)
include hlaid hat

private theorem step_placed {i : Instruction} (hw : s.WellFormed) (hi : i.isPlain = true)
    (hc : ((s.emit i).acts as).Continues u) {m m1 : Machine} (h : m.exec i = .ok m1) :
    (m.placed (addressOf e base s.instructions.size) code).step =
      .ok (m1.placed (addressOf e base (s.emit i).instructions.size) code) := by
  have hsize : (s.emit i).instructions.size = s.instructions.size + 1 := by simp [emit]
  have hlt : s.instructions.size < ((s.emit i).acts as).instructions.size := by
    have := size_acts_le (s.emit i) as
    omega
  have hget : u.instructions[s.instructions.size]? = some i := by
    rw [hc.instructions _ hlt, instructions_acts (by omega)]
    exact Array.getElem?_push_size
  have hfree (label : Nat) : (s.instructions.size, label) ∉ u.fixups := by
    rw [hc.fixups _ _ hlt, mem_fixups_acts (by omega)]
    exact fun hf => Nat.lt_irrefl _ (hw.fixup_lt hf)
  obtain ⟨new, hnew, hop⟩ := hlaid.operands _ i hget hfree
  obtain rfl : new = i := by
    rw [OperandResolved] at hop
    split at hop
    · next label hlabel => exact absurd hlabel (Instruction.operand?_of_isPlain hi label)
    · exact hop
  rw [hat.fetch hnew, (m.exec_placed _ code (Instruction.flow_of_isPlain hi)).eq, h, hsize]
  rfl

private theorem step_placed_branch {cond : Option BranchCond} {label : Nat}
    (hc : ((s.emitBranch cond label).acts as).Continues u) (hpool : ∀ j, u.poolLabel? j ≠ some label) (m : Machine) :
    ∃ m', spot u e base code (s.emitBranch cond label) (if Action.goes m.flags cond then some label else none, m) =
      some m' ∧ (m.placed (addressOf e base s.instructions.size) code).step = .ok m' := by
  have hsize : (s.emitBranch cond label).instructions.size = s.instructions.size + 1 := by simp [emitBranch]
  have hlt : s.instructions.size < ((s.emitBranch cond label).acts as).instructions.size := by
    have := size_acts_le (s.emitBranch cond label) as
    omega
  obtain ⟨instr, hget, htaken⟩ : ∃ instr, (s.emitBranch cond label).instructions[s.instructions.size]? = some instr ∧
      ∀ flags, instr.taken flags = Action.goes flags cond := by
    cases cond with
    | none => exact ⟨.bra 0#32, Array.getElem?_push_size, fun _ => rfl⟩
    | some cond => exact ⟨.branch cond 0#32, Array.getElem?_push_size, fun _ => rfl⟩
  have hfix : (s.instructions.size, label) ∈ u.fixups := by
    rw [hc.fixups _ _ hlt, mem_fixups_acts (by omega)]
    simp [emitBranch]
  have hsame := hc.instructions _ hlt
  rw [instructions_acts (by omega), hget] at hsame
  obtain ⟨j, hj, hstep⟩ := hat.step_branch hlaid hsame hfix hpool m
  refine ⟨_, ?_, hstep⟩
  rw [branch, htaken] at hj
  cases hgoes : Action.goes m.flags cond with
  | true =>
    rw [hgoes, if_pos rfl] at hj
    rw [if_pos rfl, spot]
    split at hj
    · next p hp =>
      cases hj
      rw [hp]
      rfl
    · cases hj
  | false =>
    rw [hgoes] at hj
    cases hj
    rw [← hsize]
    rfl

end Follow

theorem steps_of_run {e : EncodedFunction} {base : Nat} {code : AddressMap (Option Instruction) 32}
    (hlaid : u.LaidOut e) (hat : e.IsAt base code) (hw : s.WellFormed) (ha : s.Admits as)
    (hc : (s.acts as).Continues u) (hown : ∀ cond label, .branch cond label ∈ as → ∀ j, u.poolLabel? j ≠ some label)
    {r r' : Option Nat × Machine} (hrun : Action.run r as = .ok r') {m : Machine}
    (hm : spot u e base code s r = some m) :
    ∃ n m', spot u e base code (s.acts as) r' = some m' ∧ m.steps n = .ok m' := by
  induction as generalizing s r m with
  | nil =>
    cases hrun
    exact ⟨0, m, hm, rfl⟩
  | cons a as ih =>
    rw [Action.run_cons] at hrun
    obtain ⟨r1, hstep, hrun⟩ := bind_eq_ok.mp hrun
    have hrest {m1 : Machine} (hm1 : spot u e base code (s.act a) r1 = some m1) :
        ∃ n m', spot u e base code (s.acts (a :: as)) r' = some m' ∧ m1.steps n = .ok m' :=
      ih (hw.act a) ha.tail hc (fun cond label hmem => hown cond label (List.mem_cons_of_mem _ hmem)) hrun hm1
    have hmore {m1 : Machine} (hm1 : spot u e base code (s.act a) r1 = some m1) (hone : m.step = .ok m1) :
        ∃ n m', spot u e base code (s.acts (a :: as)) r' = some m' ∧ m.steps n = .ok m' := by
      obtain ⟨n, m', hm', hsteps⟩ := hrest hm1
      exact ⟨n + 1, m', hm', by rw [steps, hone, ok_bind, hsteps]⟩
    obtain ⟨_ | label, m0⟩ := r
    · cases hm
      cases a with
      | emit i =>
        obtain ⟨m1, hadv, hr1⟩ := bind_eq_ok.mp (show m0.advance i >>= (fun m1 => pure (none, m1)) = .ok r1 from hstep)
        cases hr1
        rw [advance] at hadv
        split at hadv
        · next hi => exact hmore rfl (step_placed hlaid hat hw hi hc hadv)
        · cases hadv
      | branch cond label =>
        cases hstep
        obtain ⟨m1, hm1, hone⟩ := step_placed_branch hlaid hat hc (hown cond label List.mem_cons_self) m0
        exact hmore hm1 hone
      | newLabel =>
        cases hstep
        exact hrest rfl
      | define label =>
        cases hstep
        exact hrest rfl
    · -- under way to a label, no step is taken
      cases a with
      | define label' =>
        cases hstep
        by_cases hl : label' = label
        · subst hl
          have hbound : u.labelPlace? label' = some s.instructions.size := by
            have hhere : (s.act (.define label')).labels[label']? = some (some (.instr s.instructions.size)) := by
              simp [act, define, (List.getElem?_eq_some_iff.mp ha.1).1]
            rw [labelPlace?, hc.labels _ _ (labels_acts ha.tail hhere)]
            rfl
          rw [spot, hbound] at hm
          rw [if_pos rfl] at hrest
          exact hrest hm
        · rw [if_neg hl] at hrest
          exact hrest hm
      | _ =>
        cases hstep
        exact hrest hm

end Stream

namespace Expansion

structure Copied (d : UInt8) (w : Word) (m m' : Machine) : Prop where
  value : m'.regs (.general d) = w
  others : ∀ n < 64, n ≠ d → m'.regs (.general n) = m.regs (.general n)
  bytes : ∀ b < memorySize, b < 4 * d.toNat ∨ 4 * d.toNat + 4 ≤ b → m'.memory.get b = m.memory.get b
  sp : m'.sp = m.sp
  x : m'.x = m.x
  y : m'.y = m.y
  t : m'.t = m.t
  floats : m'.floats = m.floats

variable {m' m : Machine} {w : Word}

theorem Copied.of_puts {d : UInt8} (hd : d < 64) (h : m.Puts (4 * d.toNat) w m') : Copied d w m m' := by
  have hd' : d.toNat < 64 := hd
  have hothers (n : UInt8) (hn : n < 64) (hne : n ≠ d) : m'.regs (.general n) = m.regs (.general n) := by
    have hn' : n.toNat < 64 := hn
    have hne' : n.toNat ≠ d.toNat := fun he => hne (UInt8.toNat_inj.mp he)
    exact h.yields.others (by rw [memorySize]; omega) (by omega)
  obtain ⟨⟨acc, flags, mem, rfl⟩, hvalue, hbytes⟩ := h
  exact ⟨hvalue, hothers, hbytes, rfl, rfl, rfl, rfl, rfl⟩

theorem Copied.placed {d : UInt8} (h : Copied d w m m') (pc : Word) (code : AddressMap (Option Instruction) 32) :
    Copied d w m (m'.placed pc code) :=
  ⟨h.value, h.others, h.bytes, h.sp, h.x, h.y, h.t, h.floats⟩

variable {d l t f : UInt8} {cc : CondCode} {rhs : CmpRhs Reg}

/-- A selection on an integer compare of general registers, expanded behind any code, with any code behind it and
finished in any way, leads from the address of its first instruction to the address behind its last. Its register then
holds the one alternative if the relation held and the other if not, and no other register or byte changes. -/
theorem expandInst_selects {frame : Frame} {folding : Bool} {b : Nat} {s : Stream} (hs : s.Built) (hd : d < 64)
    (ht : t < 64) (hf : f < 64) (hl : l < 64) (hr : ∀ r, rhs = .reg r → ∃ n < 64, r = .general n) :
    ∃ s', expandInst frame folding b s (.selectCc (.int cc (.general l) rhs) (.general d) (.general t) (.general f)) =
        .ok s' ∧ s'.Built ∧
      ∀ u relaxing stackSize e, u.Built → s'.Continues u → u.finish relaxing stackSize = .ok e →
        ∀ (base : Nat) (m : Machine), e.IsAt base m.code → m.pc = addressOf e base s.instructions.size →
          ∃ n m', m.steps n = .ok m' ∧ m'.pc = addressOf e base s'.instructions.size ∧
            Copied d (if cc.holds (m.regs (.general l)) (rhs.eval m.regs) then m.regs (.general t)
              else m.regs (.general f)) m m' := by
  obtain ⟨as, has, hlabels, hruns⟩ := selectActions_runs cc hd ht hf hl hr s.labels.length
  refine ⟨s.acts as, ?_, hs.acts (admits_selectActions has),
    fun u relaxing stackSize e hu hc hfinish base m hat hpc => ?_⟩
  · rw [expandInst_eq]
    exact congrArg (s.acts <$> ·) has
  · obtain ⟨m1, hrun, hputs⟩ := hruns m
    have hown (cond : Option BranchCond) (label : Nat) (hmem : .branch cond label ∈ as) (j : Nat) :
        u.poolLabel? j ≠ some label := by
      have hblocks := hc.blocks.trans (s.blocks_acts as)
      have hpool := hc.pool.trans (s.acts_kept as).2
      exact Stream.poolLabel?_ne hs hblocks hpool (hlabels cond label hmem) j
    have hlaid := hu.wellFormed.1.laidOut hu.wellFormed.2 hfinish
    have hstart : Stream.spot u e base m.code s (none, m) = some m := by
      rw [Stream.spot, ← hpc]
      rfl
    obtain ⟨n, m', hend, hsteps⟩ :=
      Stream.steps_of_run hlaid hat hs.wellFormed.1 (admits_selectActions has) hc hown hrun hstart
    cases hend
    exact ⟨n, _, hsteps, rfl, (Copied.of_puts hd hputs).placed _ m.code⟩

def maxStart : Stream := ((Stream.empty "max" 1 [[1, 2, 3, 4]]).define 0).emit (.immediate .ldaImm (.label 1))

def maxRest : List Action :=
  (List.replicate 21 (Instruction.immediate .ldaImm (.value 7#32))).map Action.emit ++ [Action.branch (some .ne) 0]

def maxSelect : Pseudo := .selectCc (.int .gt (.general 3) (.reg (.general 2))) (.general 2) (.general 3) (.general 2)

def maxMachine (e : EncodedFunction) : Machine where
  memory := (Memory.setWord (.uniform 0) 8 5#32).setWord 12 9#32
  pc := addressOf e 4096 1
  code := placeCode (.uniform none) 4096 e.instructions

def emptyFrame : Frame := ⟨[], 0, 0, false, false, []⟩

theorem expandInst_selects_max : ∃ s' e n m', expandInst emptyFrame false 0 maxStart maxSelect = .ok s' ∧
    (s'.acts maxRest).finish true 0 = .ok e ∧ (maxMachine e).steps n = .ok m' ∧
    m'.pc = addressOf e 4096 s'.instructions.size ∧ Copied 2 9#32 (maxMachine e) m' := by
  have hstart : maxStart.Built := ((Stream.Built.empty "max" 1 [[1, 2, 3, 4]]).define 0 (by decide)).emit _
  have hrhs (r : Reg) (hr : CmpRhs.reg (Reg.general 2) = .reg r) : ∃ n < 64, r = .general n := by
    cases hr
    exact ⟨2, by decide, rfl⟩
  obtain ⟨s', hs', hbuilt, hall⟩ := @expandInst_selects 2 3 3 2 .gt _ emptyFrame false 0 _ hstart
    (by decide) (by decide) (by decide) (by decide) hrhs
  have hcheck : ((do
      let s' ← expandInst emptyFrame false 0 maxStart maxSelect
      let e ← (s'.acts maxRest).finish true 0
      return (encodeAll e.instructions).length : Checked Nat)).toOption = some 151 := by decide +kernel
  rw [maxSelect, hs', ok_bind] at hcheck
  rcases he : (s'.acts maxRest).finish true 0 with _ | e
  · rw [he] at hcheck
    cases hcheck
  · rw [he] at hcheck
    have hlen : (encodeAll e.instructions).length = 151 := Option.some.inj hcheck
    have hat : e.IsAt 4096 (maxMachine e).code := fun i instr hi => by
      have := startOf_le_length e.instructions i
      rw [addressOf, BitVec.toNat_ofNat, Nat.mod_eq_of_lt (by omega)]
      exact get_placeCode (by omega) hi
    have hrest : (s'.acts maxRest).Built := by
      rw [maxRest, Stream.acts_append, Stream.acts_emit, Stream.acts_cons, Stream.acts_nil, Stream.act]
      exact (hbuilt.emitAll _).emitBranch _ _
    have hcont : s'.Continues (s'.acts maxRest) := .acts (by simp [maxRest])
    obtain ⟨n, m', hsteps, hpc, hcopied⟩ := hall _ true 0 e hrest hcont he 4096 (maxMachine e) hat rfl
    exact ⟨s', e, n, m', hs', he, hsteps, hpc, hcopied⟩

end Expansion

end DirectPage
