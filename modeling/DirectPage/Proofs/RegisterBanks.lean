import DirectPage.Proofs.SelectedScope

/-! Registers keep to their banks through selection.

The two banks share their numbers, so a register in the wrong one is either refused when code is made or silently
stands for another register. -/
namespace DirectPage

open Selection

/-- The operations selected for a function take every register from the bank that its position requires, if in the
blocks that are kept the operands which no check looks at are in the right bank themselves. Addresses of float
accesses are in one of the first sixteen registers in any case. -/
theorem selectOperations_banked {f : Ir.Function} {sel : Selected} (h : f.selectOperations = .ok sel) :
    (f.unmixed = true → ∀ block ∈ sel.routine.blocks, ∀ m ∈ block, m.Banked (sel.routine.scope sel.plan)) ∧
      ∀ block ∈ sel.routine.blocks, ∀ m ∈ block, ∀ r, m.floatBase? = some r →
        (sel.routine.scope sel.plan).class? r = some .gprLow := by
  have hops : ∀ block ∈ sel.routine.blocks, ∀ m ∈ block, m.InScope (sel.routine.scope sel.plan) (f.unmixed = true) := by
    intro block hblock
    obtain ⟨b, hb⟩ := List.mem_iff_getElem?.mp hblock
    exact ((selectOperations_inScope h).2 b block hb).2.2
  exact ⟨fun hu block hblock m hm => (hops block hblock m hm).banked hu,
    fun block hblock m hm => (hops block hblock m hm).base⟩

def squareLarger : Ir.Function where
  name := "square_larger"
  params := [0, 1]
  returns := [.f32]
  blocks :=
    [{ insts := [.load 2 .f32 .zero ⟨.value 1, 4#32⟩, .fselectCc .ogt 3 0 2 0 2, .fsetCc .oeq 4 0 2]
       terminator := .branch 4 1 2 },
      { insts := [.call (.direct "square") [3] none [5]], terminator := .ret [5] },
      { insts := [.fbinary .mul 5 3 3], terminator := .ret [5] },
      { insts := [.binary .add 4 4 (.value 5)] }]
  valueTypes := [.f32, .ptr, .f32, .f32, .i32, .f32]

def squareLargerOps : Routine where
  name := "square_larger"
  blocks :=
    [[.copy (.virt 0) (.phys (.float 0)), .copy (.virt 1) (.phys (.general 0)), .aluImm .add (.virt 3) (.virt 1) 4#32,
        .fload (.virt 2) .single (.reg (.virt 3)),
        .selectCc (.float .olt .single (.virt 2) (.virt 0)) (.virt 4) (.virt 0) (.virt 2), .loadImm (.virt 6) 1#32,
        .loadImm (.virt 7) 0#32, .selectCc (.float .oeq .single (.virt 0) (.virt 2)) (.virt 5) (.virt 6) (.virt 7),
        .brCc (.int .ne (.virt 5) (.imm 0#32)) 1, .jump 2],
      [.callStackDown 4, .copy (.phys (.float 0)) (.virt 4), .call (.symbol "square") [.float 0] callClobbered,
        .callStackUp 4, .copy (.virt 8) (.phys (.float 0)), .copy (.phys (.float 0)) (.virt 8), .ret [.float 0]],
      [.falu .mul .single (.virt 8) (.virt 4) (.virt 4), .copy (.phys (.float 0)) (.virt 8), .ret [.float 0]], []]
  classes := [.fpr, .gpr, .fpr, .gprLow, .fpr, .gpr, .gpr, .gpr, .fpr]
  liveIns := [.float 0, .general 0]

theorem selectOperations_banked_squareLarger :
    squareLarger.selectOperations = .ok ⟨squareLargerOps, { hasCalls := true, maxCallFrame := 4 }⟩ ∧
      squareLarger.unmixed = true ∧ ∀ block ∈ squareLargerOps.blocks, ∀ m ∈ block,
        m.Banked (squareLargerOps.scope { hasCalls := true, maxCallFrame := 4 }) := by
  have hsel : squareLarger.selectOperations = .ok ⟨squareLargerOps, { hasCalls := true, maxCallFrame := 4 }⟩ :=
    by decide +kernel
  have hu : squareLarger.unmixed = true := by decide +kernel
  exact ⟨hsel, hu, (selectOperations_banked hsel).1 hu⟩

def mixedCompare : Ir.Function where
  name := "mixed"
  params := [0, 1]
  returns := [.i32]
  blocks := [{ insts := [.fsetCc .oeq 2 0 1], terminator := .ret [2] }]
  valueTypes := [.f32, .i32, .i32]

def mixedCompareOps : Routine where
  name := "mixed"
  blocks :=
    [[.copy (.virt 0) (.phys (.float 0)), .copy (.virt 1) (.phys (.general 0)), .loadImm (.virt 3) 1#32,
      .loadImm (.virt 4) 0#32, .selectCc (.float .oeq .single (.virt 0) (.virt 1)) (.virt 2) (.virt 3) (.virt 4),
      .copy (.phys (.general 0)) (.virt 2), .ret [.general 0]]]
  classes := [.fpr, .gpr, .gpr, .gpr, .gpr]
  liveIns := [.float 0, .general 0]

/-- Checks let it pass, and a compare of floats takes one side from the general registers. -/
theorem mixedCompare_not_banked : mixedCompare.verify = .ok () ∧
    mixedCompare.selectOperations = .ok ⟨mixedCompareOps, {}⟩ ∧
      ∃ block ∈ mixedCompareOps.blocks, ∃ m ∈ block, ¬m.Banked (mixedCompareOps.scope {}) := by
  have hverify : mixedCompare.verify = .ok () := by decide +kernel
  have hsel : mixedCompare.selectOperations = .ok ⟨mixedCompareOps, {}⟩ := by decide +kernel
  refine ⟨hverify, hsel, _, List.mem_singleton_self _,
    .selectCc (.float .oeq .single (.virt 0) (.virt 1)) (.virt 2) (.virt 3) (.virt 4), by simp, fun h => ?_⟩
  have hrhs := h.demands (.virt 1, .floatingPoint) (by decide)
  cases hrhs

end DirectPage
