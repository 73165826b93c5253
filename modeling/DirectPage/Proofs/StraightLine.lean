import DirectPage.Proofs.Arguments
import DirectPage.Proofs.FunctionCode
import DirectPage.Proofs.Loaded

/-! A straight-line integer function that is compiled, loaded and called computes what its instructions say. -/
namespace DirectPage

open Machine
open Selection (ObjectOf Incoming argWord wordLoc)

section Allocate

variable {f : Ir.Function} {insts : List Ir.Inst} {results : List Ir.Value} {sel : Selected}
  {al : Allocation.Allocated}

/-- Operations with registers assigned compute the results, with any amount of spilling. -/
private theorem allocate_spec (hf : f.StraightLine insts results) (hsel : f.selectOperations = .ok sel)
    (h : (Allocation.allocate Allocation.scanning sel.plan.reserved sel.routine sel.plan).result = .ok al) :
    al.routine.name = f.name ∧ al.plan.needsFrameBase = false ∧ al.plan.hasCalls = false ∧
      (∀ o ∈ al.plan.objects, ObjectOf f.params.length o) ∧
      ∃ ms, al.routine.Plain al.plan.objects ms (intReturnRegs.take results.length) ∧
        (∀ p ∈ ms.map (·.mapRegs al.assignment.regMap.apply), Allocation.Placed al.plan.objects p) ∧
        ∀ args incoming st, args.length = f.params.length → Incoming al.plan.objects incoming st →
          (∀ (k : Nat) w, args[k]? = some w → argWord st incoming (wordLoc k) = w) →
          Option.Rel (Selection.Returned results) (Ir.Inst.evalAll (.ofArgs f.params args) insts)
            (Pseudo.evalAll st (ms.map (·.mapRegs al.assignment.regMap.apply))) := by
  obtain ⟨-, ms, hplain, hname, ⟨objects, vararg, hplan⟩, hobjects, heval⟩ := Selection.selectOperations_spec hf hsel
  obtain ⟨hwide, hname', hscan, hspilled, ms', hplain', hrounds⟩ := Allocation.rounds_spec hplain h
  obtain ⟨⟨k, hk⟩, hrest⟩ := hwide
  refine ⟨hname'.trans hname, ?_, ?_, fun o ho => ?_, ms', hplain', fun p hp => ?_,
    fun args incoming st hargs hin harg => ?_⟩
  · rw [hrest, hplan]
    rfl
  · rw [hrest, hplan]
  · rw [hk, List.mem_append] at ho
    rcases ho with ho | ho
    · exact hobjects o ho
    · rw [List.eq_of_mem_replicate ho]
      exact (by decide : 0 < wordSize)
  · obtain ⟨m, hm, rfl⟩ := List.mem_map.mp hp
    exact Allocation.placed_assign hplain' hscan hspilled hm
  · have hassign := Allocation.evalAll_assign hscan hspilled hplain'.blocks (fun m hm => (hplain'.fits m hm).word) st
    obtain ⟨st1, hregs, hobj, hspill⟩ := hrounds (st.pull al.assignment.regMap.apply)
    have hsame (r : Register) : st1.regs (.phys r) = st.regs (.phys r) := hregs r
    have hselect := heval args incoming st1 hargs
      (fun i offset hi => by
        have hlt := (List.getElem?_eq_some_iff.mp hi).1
        rw [hobj i hlt]
        exact hin i offset (by rw [hk, List.getElem?_append_left hlt, hi]))
      (fun j w hj => by
        rw [← harg j w hj]
        cases wordLoc j with
        | reg r => exact hsame r
        | stack => rfl)
    refine rel_trans hselect (rel_trans hspill hassign fun a b c hab hbc r hr => (hab r).trans (hbc r hr)) ?_
    exact fun env a c hres hac i v r hi hr => (hac r (List.mem_of_getElem? hr)).symm.trans (hres i v r hi hr)

end Allocate

/-- The stack of a call fits into memory: arguments above its top and, above the direct page, the return address, the
registers that may have to be saved and the frame. -/
structure StackFits (e : EncodedFunction) (args : Nat) : Prop where
  args : stackTop.toNat + returnAddressSize + wordSize * (args - intArgRegs.length) ≤ memorySize
  frame : 256 + e.stackSize + wordSize * calleeSaved.length + returnAddressSize ≤ stackTop.toNat

structure Answered (m : Machine) (results : List Ir.Value) (env : Ir.Env) (m' : Machine) : Prop where
  pc : m'.pc = m.memory.word (m.sp.toNat + 4)
  sp : m'.sp = m.sp + 4#32
  regs : ∀ (i : Nat) v r, results[i]? = some v → (intReturnRegs.take results.length)[i]? = some r →
    m'.regs (.phys r) = env v

theorem Answered.of_forget {m m' m'' : Machine} {results : List Ir.Value} {env : Ir.Env}
    (h : Answered m results env m') (hf : m'.forget = m''.forget) : Answered m results env m'' := by
  have hmem : m''.memory = m'.memory := (congrArg Machine.memory hf.symm :)
  have hregs (r : Register) : m''.regs (.phys r) = m'.regs (.phys r) := by
    cases r with
    | general n => exact congrArg (·.word (4 * n.toNat)) hmem
    | _ => rfl
  exact ⟨((congrArg Machine.pc hf.symm :) : m''.pc = m'.pc).trans h.pc,
    ((congrArg Machine.sp hf.symm :) : m''.sp = m'.sp).trans h.sp,
    fun i v r hi hr => (hregs r).trans (h.regs i v r hi hr)⟩

section Compile

variable {f : Ir.Function} {insts : List Ir.Inst} {results : List Ir.Value} {options : Options} {e : EncodedFunction}

/-- Stack arguments lie below the end of memory. -/
private theorem stack_le {k n offset : Nat} (h : wordLoc k = .stack offset wordSize) (hk : k < n)
    (hn : stackTop.toNat + returnAddressSize + wordSize * (n - intArgRegs.length) ≤ memorySize) :
    stackTop.toNat + returnAddressSize + offset + wordSize ≤ memorySize := by
  by_cases hlt : k < intArgRegs.length
  · obtain ⟨_, -, -, hreg⟩ := wordLoc_of_lt hlt
    rw [hreg] at h
    cases h
  · rw [wordLoc_of_ge (Nat.le_of_not_lt hlt)] at h
    cases h
    simp only [wordSize] at hn ⊢
    omega

/-- Registers and the stack hold the arguments at entry. -/
private theorem argWord_entered {m : Machine} {st : Store} (hsp : m.sp.toNat + 4 = stackTop.toNat)
    (hregs : ∀ n < 64, st.regs (.general n) = m.regs (.general n)) (k : Nat) :
    argWord st (fun offset => m.memory.word (m.sp.toNat + incomingArgsOffset + offset)) (wordLoc k) =
      m.memory.word (argAddress k) := by
  rw [argAddress]
  split
  · next hlt =>
    obtain ⟨n, hn, rfl, hloc⟩ := wordLoc_of_lt hlt
    rw [hloc]
    exact hregs n hn
  · next hge =>
    rw [wordLoc_of_ge (Nat.le_of_not_lt hge), argWord, ← hsp]
    rfl

private theorem stackSize_finish {s : Stream} {relaxing : Bool} {size : Nat} (h : s.finish relaxing size = .ok e) :
    e.stackSize = size := by
  obtain ⟨_, -, h1⟩ := bind_eq_ok.mp h
  obtain ⟨_, -, h2⟩ := bind_eq_ok.mp h1
  obtain ⟨_, -, h3⟩ := bind_eq_ok.mp h2
  cases h3
  rfl

private theorem compile_spec (hf : f.StraightLine insts results) (h : f.compile options = .ok e) :
    ∃ t : Stream, t.Built ∧ t.Guarded ∧ t.Forward ∧ t.name = f.name ∧ t.pool = [] ∧
      (∃ size, (if options.cleanup then t.clean else t).finish options.relaxing size = .ok e) ∧
      ∀ (w : World) (m m1 : Machine) entry args, args.length = f.params.length → StackFits e args.length →
        m.Entered entry args m1 →
        ∃ x m2, t.Leads w (.running 0 m1) (.ended x m2) ∧
          Ends (Answered m1 results) (Ir.Inst.evalAll (.ofArgs f.params args) insts) x m2 := by
  rw [Ir.Function.compile, Ir.Function.compileWith] at h
  cases hsel : f.selectOperations with
  | error => rw [hsel] at h; cases h
  | ok sel =>
    rw [hsel] at h
    obtain ⟨al, hal, hasm⟩ := bind_eq_ok.mp h
    obtain ⟨hname, hbase, hcalls, hobjects, ms, hplain, hplaced, heval⟩ := allocate_spec hf hsel hal
    obtain ⟨frame, t, hsimple, hsaved, hframed, hfinish⟩ := assemble_framed hplain hbase hcalls
      (fun size align ho => hobjects _ ho) hasm
    obtain ⟨hbuilt, hguarded, hforward, htname, hpool⟩ := hframed.shape hplaced
    refine ⟨t, hbuilt, hguarded, hforward, htname.trans hname, hpool, ⟨_, hfinish⟩, ?_⟩
    intro w m m1 entry args hargs hfits hentered
    have hstack : e.stackSize = frame.stackSize := stackSize_finish hfinish
    have hlen := (savedRegisters_spec false al.assignment.calleeSaved).2
    rw [← hsaved] at hlen
    have hsp := hentered.sp
    have hframe := hfits.frame
    have htop : stackTop.toNat + 8 ≤ memorySize := by decide
    have hword : wordSize = 4 := rfl
    have hargs8 : incomingArgsOffset = 8 := rfl
    have hret : returnAddressSize = 4 := rfl
    obtain ⟨st, hregs, hincoming, x, m2, hleads, hends⟩ := hframed.leads hplaced hsimple
      (hsimple.frameBase.symm ▸ hsaved) w (m := m1)
      (by rw [hword] at hframe; omega) (by omega) fun offset ho => by
        obtain ⟨k, hk, hloc⟩ := hobjects _ ho rfl
        have hle := stack_le hloc hk (hargs ▸ hfits.args)
        omega
    refine ⟨x, m2, hleads, hends.of_rel (heval args
      (fun offset => m1.memory.word (m1.sp.toNat + incomingArgsOffset + offset)) st hargs hincoming fun k v hk => ?_)
      fun env st' hres hreturned => ⟨hreturned.pc, hreturned.sp, fun i v r hi hr => ?_⟩⟩
    · rw [← hentered.args k v hk]
      exact argWord_entered hsp hregs k
    · have hmem := List.mem_of_mem_take (List.mem_of_getElem? hr)
      simp only [intReturnRegs, List.mem_cons, List.not_mem_nil, or_false] at hmem
      rw [← hres i v r hi hr]
      rcases hmem with rfl | rfl <;> exact hreturned.regs _ (by decide) (by decide)

private theorem encoded_spec (hf : f.StraightLine insts results) (h : f.compile options = .ok e) :
    ∃ s : Stream, s.WellFormed ∧ s.pool = [] ∧ s.LaidOut e ∧ s.name = f.name ∧
      ∀ (w : World) (m m1 : Machine) entry args, args.length = f.params.length → StackFits e args.length →
        m.Entered entry args m1 → ∃ x m2, ∃ n ≤ s.instructions.size + 1,
          (s.run w n (.running 0 m1)).2 = .ended x m2 ∧
            Ends (Answered m1 results) (Ir.Inst.evalAll (.ofArgs f.params args) insts) x m2 := by
  obtain ⟨t, hbuilt, hguarded, hforward, hname, hpool, ⟨size, hfinish⟩, hleads⟩ := compile_spec hf h
  have hcleaned : ∃ s : Stream, s.Built ∧ s.Forward ∧ s.name = f.name ∧ s.pool = [] ∧ t.Agree s ∧
      s.finish options.relaxing size = .ok e := by
    cases hc : options.cleanup with
    | false =>
      rw [hc] at hfinish
      exact ⟨t, hbuilt, hforward, hname, hpool, .refl t, hfinish⟩
    | true =>
      rw [hc] at hfinish
      have hkept : t.clean.name = f.name ∧ t.clean.pool = [] :=
        Stream.clean_keeps (P := fun s => s.name = f.name ∧ s.pool = []) (fun s hs => hs) t ⟨hname, hpool⟩
      exact ⟨t.clean, hbuilt.clean, hforward.clean, hkept.1, hkept.2,
        Stream.agree_clean hbuilt.wellFormed.1 hguarded, hfinish⟩
  obtain ⟨s, hb, hfw, hn, hp, hagree, hfin⟩ := hcleaned
  have hw := hb.wellFormed
  refine ⟨s, hw.1, hp, hw.1.laidOut hw.2 hfin, hn, fun w m m1 entry args hargs hfits hentered => ?_⟩
  obtain ⟨x, m2, ⟨n, hn⟩, hends⟩ := hleads w m m1 entry args hargs hfits hentered
  obtain ⟨k, -, hk⟩ := hagree.1 w m1 n
  rw [hn] at hk
  cases hrun : (s.run w k (.running 0 m1)).2 with
  | running => rw [hrun] at hk; cases hk
  | ended y m3 =>
    rw [hrun] at hk
    obtain ⟨rfl, hforget⟩ := hk
    obtain ⟨n', hn', hrun'⟩ := hfw.leads_ended hw.1 (Nat.zero_le _) ⟨k, hrun⟩
    exact ⟨x, m3, n', hn', hrun', hends.mono fun env hans => hans.of_forget hforget⟩

/-- A compiled function that is loaded and called returns what its instructions compute, with the stack pointer where
it was, and faults exactly where they divide by zero. -/
theorem compile_call_straightLine (hf : f.StraightLine insts results) (hc : f.compile options = .ok e)
    {m loaded : Machine} {addr : Word} (hl : m.load e = .ok (addr, loaded)) (args : List Word)
    (ha : args.length = f.params.length) (hs : StackFits e args.length) :
    match Ir.Inst.evalAll (.ofArgs f.params args) insts with
    | some env => ∃ ret, (loaded.call f.name (args.map .i32)).2 = .ok ret ∧ ret.sp = stackTop ∧
        (∀ v, results[0]? = some v → ret.r0 = env v) ∧ ∀ v, results[1]? = some v → ret.r1 = env v
    | none => (loaded.call f.name (args.map .i32)).2 = fault .divisionByZero := by
  obtain ⟨s, hw, hpool, hlaid, hname, hrun⟩ := encoded_spec hf hc
  obtain ⟨base, rfl, hloaded, hsymbols⟩ := Loaded.of_load hw hpool hlaid hl
  have hlookup : loaded.symbols.lookup e.name = some (BitVec.ofNat 32 base) := by
    rw [hsymbols, List.lookup_cons_self]
  rw [← hname, ← hlaid.name_eq]
  obtain ⟨m1, hentered, hcall⟩ := call_words hlookup hs.args
  obtain ⟨x, m2, n, hn, hend, hends⟩ := hrun (s.worldAt e base) loaded m1 _ args ha hs hentered
  have hsteps : n ≤ stepLimit := by
    have := hloaded.size_lt
    simp only [dataBase, stepLimit] at this ⊢
    omega
  have hshows := hloaded.run hsteps (hentered.symbols ▸ hlookup) hend 0
  have hstart : m1.placed (addressOf e base 0) loaded.code = m1 := by
    rw [addressOf, startOf_zero, Nat.add_zero, ← hentered.pc, ← hentered.code]
    rfl
  rw [hstart] at hshows
  rw [hcall]
  generalize Ir.Inst.evalAll (.ofArgs f.params args) insts = evaluated at hends ⊢
  cases hends with
  | @returned env _ hans =>
    have hpc : m2.pc = returnSentinel := by rw [hans.pc, hentered.sp, hentered.ret]
    obtain ⟨steps, hfrom⟩ := hshows hpc
    have hreg {i : Nat} {v : Ir.Value} {n : UInt8} (hv : results[i]? = some v)
        (hr : intReturnRegs[i]? = some (.general n)) : m2.gpr n = env v := by
      rw [gpr_eq]
      refine hans.regs i v (.general n) hv ?_
      rw [List.getElem?_take_of_lt (List.getElem?_eq_some_iff.mp hv).1, hr]
    rw [hfrom]
    refine ⟨_, rfl, ?_, fun v hv => hreg hv rfl, fun v hv => hreg hv rfl⟩
    change m2.sp = stackTop
    rw [hans.sp]
    apply BitVec.eq_of_toNat_eq
    rw [BitVec.toNat_add]
    change (m1.sp.toNat + 4) % 4294967296 = stackTop.toNat
    rw [hentered.sp]
    rfl
  | faulted =>
    have hfault := hshows (by simp [divisionFault])
    rcases hfrom : runFrom stepLimit 0 m1 with ⟨m3, r⟩
    rw [hfrom] at hfault
    cases hfault
    rfl

end Compile

/-- A step of Euclid's algorithm: the divisor, and the remainder in place of the dividend. -/
def gcdStep : Ir.Function where
  name := "gcdStep"
  params := [0, 1]
  returns := [.i32, .i32]
  blocks := [⟨[.binary .srem 0 0 (.value 1)], .ret [1, 0]⟩]
  valueTypes := [.i32, .i32]

private def gcdRoutine : Routine where
  name := "gcdStep"
  blocks := [[.copy (.virt 0) (.phys (.general 0)), .copy (.virt 1) (.phys (.general 1)),
    .mulDiv .srem (.virt 0) (.virt 0) (.virt 1), .copy (.phys (.general 0)) (.virt 1),
    .copy (.phys (.general 1)) (.virt 0), .ret [.general 0, .general 1]]]
  classes := [.gpr, .gpr]
  liveIns := [.general 0, .general 1]

section

open Allocation

private def gcdRegs : List (Nat × Register) := [(1, .general 1), (0, .general 2)]

private theorem compile_gcdStep : ∃ e, gcdStep.compile {} = .ok e ∧ e.code.length = 42 ∧ e.stackSize = 4 := by
  have hsel : gcdStep.selectOperations = .ok ⟨gcdRoutine, {}⟩ := rfl
  have hi : intervals gcdRoutine = [⟨0, ⟨1, 8⟩⟩, ⟨1, ⟨3, 6⟩⟩] := intervals_eq (by decide +kernel) (by decide)
  have hview : viewScan gcdRoutine .base [⟨0, ⟨1, 8⟩⟩, ⟨1, ⟨3, 6⟩⟩] = .ok (gcdRegs, []) := by decide +kernel
  have hal : (allocate scanning ({} : FramePlan).reserved gcdRoutine {}).result =
      .ok ⟨⟨gcdRegs, calleeSavedIn gcdRegs, []⟩, gcdRoutine, {}⟩ := allocate_of_scan (by decide +kernel) hi hview
  have hasm : (Allocated.assemble ⟨⟨gcdRegs, calleeSavedIn gcdRegs, []⟩, gcdRoutine, {}⟩
      {}).toOption.any (fun e => e.code.length == 42 && e.stackSize == 4) = true := by decide +kernel
  have hcompile : gcdStep.compile {} =
      Allocated.assemble ⟨⟨gcdRegs, calleeSavedIn gcdRegs, []⟩, gcdRoutine, {}⟩ {} := by
    rw [Ir.Function.compile, Ir.Function.compileWith, hsel]
    change Except.bind (allocate scanning ({} : FramePlan).reserved gcdRoutine {}).result _ = _
    rw [hal]
    rfl
  rw [hcompile]
  generalize Allocated.assemble _ _ = x at hasm
  cases x with
  | error => cases hasm
  | ok e =>
    change (e.code.length == 42 && e.stackSize == 4) = true at hasm
    exact ⟨e, rfl, by simpa using hasm⟩

end

/-- Dividing the least number by minus one leaves no remainder, and dividing by zero is a fault. -/
theorem compile_call_gcdStep : ∃ e addr loaded,
    gcdStep.compile {} = .ok e ∧ ({} : Machine).load e = .ok (addr, loaded) ∧
    (∃ ret, (loaded.call "gcdStep" [.i32 0x80000000#32, .i32 (-1#32)]).2 = .ok ret ∧ ret.sp = stackTop ∧
      ret.r0 = -1#32 ∧ ret.r1 = 0#32) ∧
    (loaded.call "gcdStep" [.i32 7#32, .i32 0#32]).2 = fault .divisionByZero := by
  obtain ⟨e, hc, hlen, hsize⟩ := compile_gcdStep
  have hf : gcdStep.StraightLine [.binary .srem 0 0 (.value 1)] [1, 0] :=
    ⟨rfl, by decide, by decide, by decide, by decide⟩
  have hfits : StackFits e 2 := ⟨by decide, by rw [hsize]; decide⟩
  obtain ⟨addr, loaded, hl⟩ : ∃ addr loaded, ({} : Machine).load e = .ok (addr, loaded) := by
    rw [load, hlen]
    exact ⟨_, _, rfl⟩
  obtain ⟨ret, hret, hsp, h0, h1⟩ := compile_call_straightLine hf hc hl [0x80000000#32, -1#32] rfl hfits
  exact ⟨e, addr, loaded, hc, hl, ⟨ret, hret, hsp, h0 1 rfl, h1 0 rfl⟩,
    compile_call_straightLine hf hc hl [7#32, 0#32] rfl hfits⟩

end DirectPage
