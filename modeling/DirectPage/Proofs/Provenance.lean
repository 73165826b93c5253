import DirectPage.Expansion
import DirectPage.Proofs.Checked
import DirectPage.Proofs.Retain

/-! The operation that each instruction of a stream is emitted for, as block and index, before and after cleanup. -/
namespace DirectPage

namespace Expansion

def traceInst (frame : Frame) (folding : Bool) (b : Nat) (traced : Stream × List (Nat × Nat)) (op : Pseudo × Nat) :
    Checked (Stream × List (Nat × Nat)) := do
  let s ← expandInst frame folding b traced.1 op.1
  return (s, traced.2 ++ List.replicate (s.instructions.size - traced.1.instructions.size) (b, op.2))

def traceBlock (frame : Frame) (folding : Bool) (traced : Stream × List (Nat × Nat)) (b : Nat) (block : List Pseudo) :
    Checked (Stream × List (Nat × Nat)) := do
  let label ← orFail (.internal (.noLabel b)) (traced.1.blockLabel? b)
  block.zipIdx.foldlM (traceInst frame folding b) (traced.1.define label, traced.2)

def traceBlocks (frame : Frame) (folding : Bool) :
    Stream × List (Nat × Nat) → Nat → List (List Pseudo) → Checked (Stream × List (Nat × Nat))
  | traced, _, [] => .ok traced
  | traced, b, block :: rest => do
    let traced ← traceBlock frame folding traced b block
    traceBlocks frame folding traced (b + 1) rest

section Trace

variable {frame : Frame} {folding : Bool}

private theorem fst_traceInst (b : Nat) (traced : Stream × List (Nat × Nat)) (op : Pseudo × Nat) :
    Prod.fst <$> traceInst frame folding b traced op = expandInst frame folding b traced.1 op.1 := by
  rw [traceInst]
  cases expandInst frame folding b traced.1 op.1 <;> rfl

private theorem fst_foldlM (b : Nat) (ops : List (Pseudo × Nat)) (traced : Stream × List (Nat × Nat)) :
    Prod.fst <$> ops.foldlM (traceInst frame folding b) traced =
      (ops.map Prod.fst).foldlM (expandInst frame folding b) traced.1 := by
  induction ops generalizing traced with
  | nil => rfl
  | cons op ops ih =>
    rw [List.foldlM_cons, List.map_cons, List.foldlM_cons, ← fst_traceInst]
    cases traceInst frame folding b traced op with
    | error => rfl
    | ok mid => exact ih mid

private theorem fst_traceBlocks (blocks : List (List Pseudo)) (b : Nat) (traced : Stream × List (Nat × Nat)) :
    Prod.fst <$> traceBlocks frame folding traced b blocks = expandBlocks frame folding traced.1 b blocks := by
  induction blocks generalizing traced b with
  | nil => rfl
  | cons block rest ih =>
    have hblock : Prod.fst <$> traceBlock frame folding traced b block =
      expandBlock frame folding traced.1 b block := by
      rw [traceBlock, expandBlock]
      cases traced.1.blockLabel? b with
      | none => rfl
      | some label =>
        refine (fst_foldlM b block.zipIdx (traced.1.define label, traced.2)).trans ?_
        rw [List.zipIdx_map_fst]
        rfl
    rw [traceBlocks, expandBlocks, ← hblock]
    cases traceBlock frame folding traced b block with
    | error => rfl
    | ok mid => exact ih (b + 1) mid

end Trace

end Expansion

def Routine.trace (f : Routine) (frame : Frame) (folding : Bool) : Checked (Stream × List (Nat × Nat)) :=
  Expansion.traceBlocks frame folding (.empty f.name f.blocks.length f.pool, []) 0 f.blocks

theorem Routine.fst_trace (f : Routine) (frame : Frame) (folding : Bool) :
    Prod.fst <$> f.trace frame folding = f.expand frame folding :=
  Expansion.fst_traceBlocks f.blocks 0 _

namespace Stream

variable {α : Type}

def cleanFrom (s : Stream) (data : List α) : List α :=
  if s.cleanRound.instructions.size < s.instructions.size then s.cleanRound.cleanFrom (kept s.keeps data) else data
termination_by s.instructions.size

theorem cleanFrom_keeps {P : Stream → List α → Prop} (hr : ∀ s data, P s data → P s.cleanRound (kept s.keeps data))
    (s : Stream) (data : List α) (h : P s data) : P s.clean (s.cleanFrom data) := by
  fun_induction cleanFrom s data with
  | case1 s data hlt ih =>
    rw [clean, if_pos hlt]
    exact ih (hr s data h)
  | case2 s data hge =>
    rw [clean, if_neg hge]
    exact h

end Stream

end DirectPage
