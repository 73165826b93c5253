import DirectPage.Proofs.ArgumentCode
import DirectPage.Proofs.Pipeline

/-! Caller and callee mean the same bytes by an argument on the stack.

The caller counts from the stack pointer at the call. The callee counts from where the stack pointer
is behind its prologue, over its own frame, the registers it pushed and the return address. -/
namespace DirectPage

def CallsWith (sp entry : Word) : Prop :=
  ∃ (target : CallTarget) (i : Instruction) (m m' : Machine),
    Expansion.call target = .ok [i] ∧ m.exec i = .ok m' ∧ m.sp = sp ∧ m'.sp = entry

theorem CallsWith.entry_eq {sp entry : Word} (h : CallsWith sp entry) : entry = sp - 4#32 := by
  obtain ⟨target, i, m, m', hi, hexec, rfl, rfl⟩ := h
  cases target with
  | symbol name =>
    cases hi
    obtain ⟨addr, -, hexec⟩ := bind_eq_ok.mp hexec
    obtain ⟨m1, hm, hexec⟩ := bind_eq_ok.mp hexec
    cases hexec
    exact (Machine.push_sp hm : m1.sp = _)
  | reg r =>
    obtain ⟨slot, -, hi⟩ := bind_eq_ok.mp hi
    cases hi
    obtain ⟨addr, -, hexec⟩ := bind_eq_ok.mp hexec
    obtain ⟨m1, hm, hexec⟩ := bind_eq_ok.mp hexec
    cases hexec
    exact (Machine.push_sp hm : m1.sp = _)

structure CallSite (types : List Ir.Ty) (fixed : Nat) where
  caller : Ir.Function
  callee : Ir.Callee
  args : List Ir.Value
  numFixed : Option Nat
  results : List Ir.Value
  before : Selection.Context
  after : Selection.Context
  typed : Selection.typesOf caller args = .ok types
  counted : numFixed.getD args.length = fixed
  selected : (Selection.call caller callee args numFixed results).run before = .ok ((), after)

/-- A function whose parameters were taken, with a frame. Other objects, calls and saved registers
have come to the frame since. -/
structure CalleeFrame (types : List Ir.Ty) where
  function : Ir.Function
  entry : Selection.Context
  plan : FramePlan
  frame : Frame
  typed : function.paramTypes = types
  taken : (Selection.parameters function).run
    { routine := .empty function.name 0, plan := Selection.slotPlan function } = .ok ((), entry)
  grows : entry.plan.Grows plan
  laid : plan.finalize = .ok frame

theorem CalleeFrame.of_framed {f : Ir.Function} {frame : Frame} {g : Routine} (h : f.framed = .ok (frame, g)) :
    ∃ c : CalleeFrame f.paramTypes, c.function = f ∧ c.frame = frame := by
  obtain ⟨selected, plan, hselect, -, -, hgrows, -, hframe⟩ := framed_kept h
  obtain ⟨cx, hparams, hreach, -⟩ := Selection.selectOperations_lays (fun _ _ _ _ => trivial) hselect
  exact ⟨⟨f, cx, plan, frame, rfl, hparams, hreach.grows.trans hgrows, hframe⟩, rfl, rfl⟩

section Agreement

variable {types : List Ir.Ty} {fixed : Nat}

/-- Each argument is put where the convention says, on the way from `s` to the call. -/
structure CallSite.Stores (c : CallSite types fixed) (frame : Frame) (code : List Pseudo) (regs : List Register)
    (s u : AddressRegs) : Prop where
  inRegs : ∀ (i : Nat) v q, c.args[i]? = some v → (assignArguments types fixed).locs[i]? = some (.reg q) →
    q ∈ regs ∧ ∃ r, c.after.values.lookup v = some r ∧ .copy (.phys q) r ∈ code
  onStack : ∀ (i : Nat) v ty offset size, c.args[i]? = some v → types[i]? = some ty →
    (assignArguments types fixed).locs[i]? = some (.stack offset size) →
    ∃ r, c.after.values.lookup v = some r ∧ Meets frame code s u fun x m =>
      m.StoresArg ty r ∧ x.accessed? frame m = some (stackArgument u.stack.sp offset)

namespace CalleeFrame

def Body (g : CalleeFrame types) (body : List Pseudo) : Prop :=
  ∀ m ∈ body, Selection.BodyOp (· ≠ 0) g.frame.frameBase g.plan.hasVarSized m

structure Locates (g : CalleeFrame types) (t : StackRegs) (i offset : Nat) (a : Word) : Prop where
  found : g.frame.Reaches offset → ∀ body w, g.Body body → StackRun g.frame body t w →
    g.frame.address? w i 0#32 = some a
  refused : ¬g.frame.Reaches offset → ∃ e, g.frame.resolve i 0#32 = .error e

/-- The function finds its arguments where the convention says, by the stack pointer at the call. -/
structure Finds (g : CalleeFrame types) (sp : Word) (t : StackRegs) : Prop where
  inRegs : ∀ (j : Nat) v q, g.function.params[j]? = some v →
    (assignArguments types types.length).locs[j]? = some (.reg q) →
    ∃ r, g.entry.values.lookup v = some r ∧ .copy r (.phys q) ∈ g.entry.out
  onStack : ∀ (j : Nat) v ty offset size, g.function.params[j]? = some v → types[j]? = some ty →
    (assignArguments types types.length).locs[j]? = some (.stack offset size) →
    ∃ r i, g.entry.values.lookup v = some r ∧ g.plan.objects[i]? = some (.incoming offset size) ∧
      g.Locates t i offset (stackArgument sp offset) ∧
      (g.frame.Reaches offset → ∀ x y, x.stack = t → AddressRun g.frame g.entry.out x y →
        Meets g.frame g.entry.out x y fun z m =>
          m.LoadsArg ty r ∧ z.accessed? g.frame m = some (stackArgument sp offset))
  /-- The address of the first variadic argument is stored to the list. -/
  variadic : g.function.variadic = true → ∀ list cx cx', Selection.Kept g.entry cx →
    (Selection.vaStart g.function list).run cx = .ok ((), cx') →
    ∃ i r ops, cx'.values.lookup list = some r ∧ cx'.out = cx.out ++ ops ∧
      g.Locates t i (assignArguments types types.length).stackSize
        (stackArgument sp (assignArguments types types.length).stackSize) ∧
      (g.frame.Reaches (assignArguments types types.length).stackSize → ∀ body x y, g.Body body →
        StackRun g.frame body t x.stack → AddressRun g.frame ops x y → Meets g.frame ops x y fun z m =>
          ∃ addr, m.StoresArg .ptr addr ∧ z.accessed? g.frame m = some (z.regs r) ∧
            z.regs addr = stackArgument sp (assignArguments types types.length).stackSize)

end CalleeFrame

end Agreement

section Proofs

variable {types : List Ir.Ty} {fixed : Nat}

private theorem mem_zip_zip {α β γ : Type} {as : List α} {bs : List β} {cs : List γ} {i : Nat} {a : α} {b : β} {c : γ}
    (ha : as[i]? = some a) (hb : bs[i]? = some b) (hc : cs[i]? = some c) : (a, b, c) ∈ as.zip (bs.zip cs) :=
  List.mem_of_getElem? (List.getElem?_zip_eq_some.mpr ⟨ha, List.getElem?_zip_eq_some.mpr ⟨hb, hc⟩⟩)

theorem CallSite.stores (c : CallSite types fixed) : ∃ code target regs rest,
    c.after.out = c.before.out ++ (code ++ .call target regs callClobbered :: rest) ∧
      ∀ frame s u, AddressRun frame code s u → c.Stores frame code regs s u := by
  obtain ⟨size, ops, inRegs, target, rest, hout, hkeep, hall⟩ := Selection.call_code c.typed c.selected
  rw [c.counted] at hall
  refine ⟨_, target, _, rest, hout, fun frame s u hrun => ?_⟩
  constructor
  case inRegs =>
    intro i v q hv hq
    obtain ⟨ty, hty⟩ := (assignArguments_fills types fixed).exists_type hq
    obtain ⟨r, o, own, hknown, hputs, -, hnoted⟩ := hall _ (mem_zip_zip hv hty hq)
    cases hputs
    have hmem := hnoted _ rfl
    exact ⟨List.mem_map_of_mem hmem, r, hknown, List.mem_append_right _ (List.mem_map_of_mem hmem)⟩
  case onStack =>
    intro i v ty offset size' hv hty hloc
    exact (hall _ (mem_zip_zip hv hty hloc)).meets hkeep hrun

namespace CalleeFrame

/-- The code that takes the parameters belongs to the body. -/
theorem body_entry (g : CalleeFrame types) : g.Body g.entry.out := by
  obtain ⟨ms, hout, -, hms⟩ := Selection.parameters_moves (fun v r hr => by cases hr) g.taken
  obtain rfl : g.entry.out = ms := hout
  exact fun m hm => (hms m hm).mono (fun _ hc => hc.elim) (fun _ => rfl) nofun

variable {g : CalleeFrame types} {sp : Word} {e t : StackRegs}

theorem locates (hcall : CallsWith sp e.sp) (hentry : StackRun g.frame g.frame.prologue e t) {i offset size : Nat}
    (hi : g.plan.objects[i]? = some (.incoming offset size)) : g.Locates t i offset (stackArgument sp offset) := by
  refine ⟨fun hreach body w hbody hrun => ?_, fun hreach => Frame.resolve_out_of_reach g.laid hi hreach _⟩
  have haddress := Frame.address_argument g.laid hi hreach hentry (Frame.slotBase_body g.laid hbody hentry hrun)
  -- the call moved the stack pointer down by as much as the callee counts for the free word
  rw [haddress, hcall.entry_eq, stackArgument, incomingArgsOffset, Nat.add_assoc, BitVec.ofNat_add wordSize,
    ← BitVec.add_assoc]
  exact congrArg (fun w => some (w + _)) (BitVec.sub_add_cancel sp 4#32)

theorem finds (hcall : CallsWith sp e.sp) (hentry : StackRun g.frame g.frame.prologue e t) : g.Finds sp t := by
  have hown : Selection.ownPlan g.function = assignArguments types types.length := by rw [Selection.ownPlan, g.typed]
  obtain ⟨⟨ops, happ, hall⟩, hvararg⟩ := Selection.parameters_code g.taken
  obtain rfl : g.entry.out = ops := happ.out
  rw [hown] at hall hvararg
  rw [g.typed] at hall
  constructor
  case inRegs =>
    intro j v q hv hq
    obtain ⟨ty, hty⟩ := (assignArguments_fills types types.length).exists_type hq
    obtain ⟨r, own, hknown, hfinds, hin⟩ := hall _ (mem_zip_zip hv hty hq)
    cases hfinds
    exact ⟨r, hknown, hin.subset List.mem_cons_self⟩
  case onStack =>
    intro j v ty offset size hv hty hloc
    obtain ⟨r, own, hknown, hfinds, ⟨pre, post, hsplit⟩⟩ := hall _ (mem_zip_zip hv hty hloc)
    obtain ⟨i, hi, hmeets⟩ := hfinds.meets g.frame
    have hlocates := locates hcall hentry (g.grows.object hi)
    refine ⟨r, i, hknown, g.grows.object hi, hlocates, fun hreach x y hx hrun => ?_⟩
    rw [← hsplit] at hrun ⊢
    obtain ⟨b, hrun, hafter⟩ := hrun.append_inv
    obtain ⟨a, hbefore, hown⟩ := hrun.append_inv
    have hpre : g.Body pre := fun m hm =>
      g.body_entry m (hsplit ▸ List.mem_append_left _ (List.mem_append_left _ hm))
    have ha := hlocates.found hreach pre a.stack hpre (hx ▸ hbefore.stackRun)
    exact (hmeets a b _ ha hown).within hbefore hafter
  case variadic =>
    intro hvariadic list cx cx' hkept hstart
    obtain ⟨i, addr, r, hi, hknown, happ'⟩ := Selection.vaStart_code hstart
    obtain ⟨i', hi', hobject⟩ := hvararg hvariadic
    obtain rfl : i = i' := by
      rcases hkept.vararg with hnone | hsame
      · rw [hnone] at hi'
        cases hi'
      · exact Option.some.inj (hi.symm.trans (hsame.trans hi'))
    have hlocates := locates hcall hentry (g.grows.object hobject)
    refine ⟨i, r, _, hknown, happ'.out, hlocates, fun hreach body x y hbody' hrun hrun' => ?_⟩
    have ha := hlocates.found hreach body x.stack hbody' hrun
    cases hrun' with
    | cons hstep hrest =>
      refine ⟨[_], _, [], _, rfl, .cons hstep .nil, hrest, addr, ⟨rfl, rfl⟩, ?_, ?_⟩
      · exact congrArg some (BitVec.add_zero _)
      · exact hstep.computed _ _ (by rw [AddressRegs.computed?, ha]; rfl)

end CalleeFrame

end Proofs

/-- Arguments have places of their own, a callee that knows the fixed ones gives them the same places,
and what a caller stores at these is where the callee looks, whatever the stack pointer and both
frames. Variadic arguments begin where the callee's list of them is started. -/
theorem arguments_agree (types : List Ir.Ty) (fixed : Nat) (hfixed : fixed ≤ types.length) :
    (assignArguments types fixed).Fills types fixed ∧
    (assignArguments (types.take fixed) (types.take fixed).length).Begins (assignArguments types fixed) fixed ∧
    ∀ c : CallSite types fixed, ∃ code target regs rest,
      c.after.out = c.before.out ++ (code ++ .call target regs callClobbered :: rest) ∧
      ∀ frame s u, AddressRun frame code s u → c.Stores frame code regs s u ∧
        ∀ (g : CalleeFrame (types.take fixed)) e t, CallsWith u.stack.sp e.sp →
          StackRun g.frame g.frame.prologue e t → g.Finds u.stack.sp t := by
  refine ⟨assignArguments_fills types fixed, ?_, fun c => ?_⟩
  · rw [List.length_take_of_le hfixed]
    exact assignArguments_begins types fixed
  · obtain ⟨code, target, regs, rest, hout, hstores⟩ := c.stores
    exact ⟨code, target, regs, rest, hout, fun frame s u hrun =>
      ⟨hstores frame s u hrun, fun g e t hcall hentry => CalleeFrame.finds hcall hentry⟩⟩

section Mixed

/-- Eighteen fixed arguments, of which both banks of registers have one too many, and two variadic ones. -/
def mixedTypes : List Ir.Ty := List.replicate 9 Ir.Ty.i32 ++ List.replicate 9 Ir.Ty.f64 ++ [Ir.Ty.f32, .ptr]

def mixedFunction : Ir.Function where
  name := "mixed"
  params := List.range 18
  variadic := true
  valueTypes := mixedTypes
  slots := [⟨10, 8⟩]

private theorem exists_of_isOk {α : Type} {x : Checked α} (h : x.isOk = true) : ∃ a, x = .ok a := by
  cases x with
  | ok a => exact ⟨a, rfl⟩
  | error e => cases h

private theorem mixed_site : ∃ c : CallSite mixedTypes 18, c.args = List.range 20 := by
  have hok : ((Selection.call { mixedFunction with name := "caller" } (.direct "mixed") (List.range 20) (some 18)
      []).run { routine := .empty "caller" 0, plan := {} }).isOk = true := by decide +kernel
  obtain ⟨⟨_, after⟩, hafter⟩ := exists_of_isOk hok
  exact ⟨⟨_, _, _, _, _, _, after, by decide +kernel, rfl, hafter⟩, rfl⟩

private theorem mixed_frame :
    ∃ g : CalleeFrame (mixedTypes.take 18), g.function = mixedFunction ∧ g.frame.frameBase = true := by
  -- a frame base and another register are pushed
  have hok : ((Selection.parameters mixedFunction).run
        { routine := .empty "mixed" 0, plan := Selection.slotPlan mixedFunction } >>= fun p =>
      ({ p.2.plan with addressTaken := true, calleeSaved := [.general 16] } : FramePlan).finalize).isOk = true := by
    decide +kernel
  obtain ⟨frame, hframe⟩ := exists_of_isOk hok
  obtain ⟨⟨_, entry⟩, hentry, hframe⟩ := bind_eq_ok.mp hframe
  refine ⟨⟨mixedFunction, entry, { entry.plan with addressTaken := true, calleeSaved := [.general 16] }, frame,
    by decide +kernel, hentry, ⟨⟨[], by simp⟩, id, id, Nat.le_refl _⟩, hframe⟩, rfl, ?_⟩
  rw [(finalize_flags hframe).1, FramePlan.needsFrameBase, Bool.or_true]

private theorem callsWith_stackTop : CallsWith stackTop (stackTop - 4#32) :=
  ⟨.symbol "mixed", _, { symbols := [("mixed", 0x1000#32)] }, _, rfl, rfl, rfl, rfl⟩

theorem arguments_agree_mixed :
    18 ≤ mixedTypes.length ∧ CallsWith stackTop (stackTop - 4#32) ∧
    ∃ (c : CallSite mixedTypes 18) (g : CalleeFrame (mixedTypes.take 18)), c.args = List.range 20 ∧
      g.function = mixedFunction ∧ g.frame.frameBase = true ∧ ∃ code target regs rest,
        c.after.out = c.before.out ++ (code ++ .call target regs callClobbered :: rest) ∧
        (∀ frame s, ∃ u, AddressRun frame code s u) ∧
        ∀ frame s u, AddressRun frame code s u → c.Stores frame code regs s u ∧
          ∀ e t, CallsWith u.stack.sp e.sp → StackRun g.frame g.frame.prologue e t → g.Finds u.stack.sp t := by
  have hfixed : 18 ≤ mixedTypes.length := by decide
  obtain ⟨c, hargs⟩ := mixed_site
  obtain ⟨g, hfunction, hbase⟩ := mixed_frame
  obtain ⟨code, target, regs, rest, hout, hrun⟩ := (arguments_agree mixedTypes 18 hfixed).2.2 c
  refine ⟨hfixed, callsWith_stackTop, c, g, hargs, hfunction, hbase, code, target, regs, rest, hout, ?_, ?_⟩
  · exact fun frame s => AddressRun.total frame code s
  · exact fun frame s u h => ⟨(hrun frame s u h).1, (hrun frame s u h).2 g⟩

end Mixed

end DirectPage
