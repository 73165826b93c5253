import DirectPage.Proofs.FrameSteps
import DirectPage.Proofs.SelectionSemantics
import DirectPage.Proofs.Walk

/-! Operations that leave the frame alone.

They do not touch the stack pointer by themselves, write no frame base, and send control only where their block leads.
Space on the stack is allocated only in frames of variable size. Parameters are taken by such operations. -/
namespace DirectPage

namespace Pseudo

def isFrameOp : Pseudo → Bool
  | push _ | pop _ | spAdjust _ | setFrameBase | restoreSp => true
  | _ => false

def isDynAlloc : Pseudo → Bool
  | dynAlloc .. => true
  | _ => false

def isStraight (varSized : Bool) : Pseudo → Bool
  | dynAlloc .. => varSized
  | call _ _ clobbers => !clobbers.contains frameBase
  | m => !m.isTerminator && !m.isFrameOp

theorem isTerminator_of_isStraight {varSized : Bool} {m : Pseudo} (h : m.isStraight varSized = true) :
    m.isTerminator = false := by
  cases m <;> first | rfl | cases h

end Pseudo

namespace Selection

/-- An operation that leaves the frame alone: it is none of those that make or undo it, writes no
frame base where there is one, and allocates only in frames of variable size. Control goes to
targets only. -/
structure BodyOp (targets : Ir.BlockId → Prop) (hasBase varSized : Bool) (m : Pseudo) : Prop where
  frameOp : m.isFrameOp = false
  base : hasBase = true → .phys frameBase ∉ m.defs
  dyn : m.isDynAlloc = true → varSized = true
  target : ∀ c, m.target? = some c → targets c

def VirtValues (cx : Context) : Prop := ∀ v r, cx.values.lookup v = some r → ∃ k, r = .virt k

structure Kept (cx cx' : Context) : Prop where
  name : cx'.routine.name = cx.routine.name
  plan : cx.plan.Grows cx'.plan
  vararg : cx.plan.vararg = none ∨ cx'.plan.vararg = cx.plan.vararg

theorem BodyOp.mono {targets targets' : Ir.BlockId → Prop} {hasBase hasBase' varSized varSized' : Bool} {m : Pseudo}
    (h : BodyOp targets hasBase varSized m) (ht : ∀ c, targets c → targets' c)
    (hb : hasBase' = true → hasBase = true) (hv : varSized = true → varSized' = true) :
    BodyOp targets' hasBase' varSized' m :=
  ⟨h.frameOp, fun h' => h.base (hb h'), fun hm => hv (h.dyn hm), fun c hc => ht c (h.target c hc)⟩

section BodyOps

variable {targets : Ir.BlockId → Prop} {hasBase varSized : Bool} {m : Pseudo}

theorem bodyOp_of_target (hframe : m.isFrameOp = false) (hdyn : m.isDynAlloc = false)
    (hdefs : .phys frameBase ∉ m.defs) (htarget : ∀ c, m.target? = some c → targets c) :
    BodyOp targets hasBase varSized m :=
  ⟨hframe, fun _ => hdefs, by simp [hdyn], htarget⟩

/-- Operations without result that neither end a block nor allocate leave the frame alone. -/
theorem bodyOp_of_defs (hframe : m.isFrameOp = false) (hdyn : m.isDynAlloc = false) (hdefs : m.defs = [])
    (htarget : m.target? = none) : BodyOp targets hasBase varSized m :=
  bodyOp_of_target hframe hdyn (by simp [hdefs]) (by simp [htarget])

/-- So do operations with a virtual register for their result. -/
theorem bodyOp_of_dst? {k : Nat} (h : m.dst? = some (.virt k)) (hdyn : m.isDynAlloc = false) :
    BodyOp targets hasBase varSized m := by
  refine bodyOp_of_target ?_ hdyn ?_ fun c hc => ?_
  · cases m <;> first | rfl | cases h
  · cases m <;> simp_all [Pseudo.dst?, Pseudo.defs]
  · cases m <;> cases h <;> cases hc

/-- So do operations that control runs through and that write to another assigned register than the frame base. -/
theorem bodyOp_of_isStraight (h : m.isStraight varSized = true)
    (hdst : ∀ r, m.dst? = some (.phys r) → r ≠ frameBase) : BodyOp targets hasBase varSized m := by
  refine ⟨?_, fun _ hmem => ?_, fun hdyn => ?_, fun c hc => ?_⟩
  · cases m <;> first | rfl | cases h
  · have hdst' : m.dst? ≠ some (.phys frameBase) := fun heq => hdst frameBase heq rfl
    cases m with
    | call target args clobbers =>
      obtain ⟨r, hr, hbase⟩ := List.mem_map.mp hmem
      cases hbase
      simp [Pseudo.isStraight, hr] at h
    | pop r => cases h
    | _ => exact hdst' (Option.mem_toList.mp hmem)
  · cases m <;> first | exact h | cases hdyn
  · cases m <;> cases hc <;> cases h

end BodyOps

section Reach

variable {f : Ir.Function} {b : Nat} {seen frontier bs : List Nat}

private theorem foldl_newIn_spec (seen bs acc : List Nat) (hacc : acc.Nodup) (hseen : ∀ b ∈ acc, b ∉ seen) :
    (bs.foldl (fun acc b => if seen.contains b || acc.contains b then acc else acc ++ [b]) acc).Nodup ∧
      ∀ b, b ∈ bs.foldl (fun acc b => if seen.contains b || acc.contains b then acc else acc ++ [b]) acc ↔
        b ∈ acc ∨ b ∈ bs ∧ b ∉ seen := by
  induction bs generalizing acc with
  | nil => simpa using hacc
  | cons c bs ih =>
    rw [List.foldl_cons]
    split
    · next hc =>
      obtain ⟨hnodup, hmem⟩ := ih acc hacc hseen
      refine ⟨hnodup, fun b => ?_⟩
      simp only [Bool.or_eq_true, List.contains_iff_mem] at hc
      rw [hmem b, List.mem_cons]
      grind
    · next hc =>
      simp only [Bool.or_eq_true, List.contains_iff_mem, not_or] at hc
      obtain ⟨hnodup, hmem⟩ := ih (acc ++ [c]) (List.nodup_append.mpr ⟨hacc, by simp, by grind⟩) (by grind)
      refine ⟨hnodup, fun b => ?_⟩
      rw [hmem b]
      grind

theorem mem_newIn : b ∈ newIn seen bs ↔ b ∈ bs ∧ b ∉ seen := by
  simpa [newIn] using (foldl_newIn_spec seen bs [] (by simp) (by simp)).2 b

theorem nodup_newIn : (newIn seen bs).Nodup :=
  (foldl_newIn_spec seen bs [] (by simp) (by simp)).1

theorem mem_reach {steps : Nat} (h : b ∈ seen ∨ b ∈ frontier) :
    b ∈ reach f steps seen frontier := by
  induction steps generalizing seen frontier with
  | zero => exact List.mem_append.mpr h
  | succ steps ih =>
    rw [reach]
    split
    · next hempty =>
      rw [List.isEmpty_iff.mp hempty] at h
      simpa using h
    · exact ih (.inl (List.mem_append.mpr h))

/-- The entry is kept in any case. -/
theorem zero_mem_reachable (f : Ir.Function) : 0 ∈ reachable f :=
  mem_reach (.inr (mem_newIn.mpr ⟨List.mem_cons_self, List.not_mem_nil⟩))

end Reach

end Selection

def Pseudo.copied? : Pseudo → Option Reg
  | copy _ src => some src
  | _ => none

def ArgLoc.reg? : ArgLoc → Option Register
  | reg r => some r
  | stack .. => none

def Ir.Function.argRegs (f : Ir.Function) : List Register :=
  (assignArguments f.paramTypes f.paramTypes.length).locs.filterMap ArgLoc.reg?

/-- Straight code whose copies take the given registers, each once and in order. -/
structure ArgMoves (regs : List Register) (ms : List Pseudo) : Prop where
  straight : ∀ m ∈ ms, m.isTerminator = false
  copies : ms.filterMap Pseudo.copied? = regs.map .phys

/-- A function that leaves the frame alone, never goes back to its entry, and starts with such code. -/
structure Routine.Bodied (f : Routine) (regs : List Register) (hasBase varSized : Bool) : Prop where
  ops : ∀ block ∈ f.blocks, ∀ m ∈ block, Selection.BodyOp (· ≠ 0) hasBase varSized m
  opens : ∃ pre rest, f.blocks[0]? = some (pre ++ rest) ∧ ArgMoves regs pre

namespace Selection

def Moves (cx cx' : Context) (regs : List Register) : Prop :=
  ∃ ms, cx'.out = cx.out ++ ms ∧ ArgMoves regs ms ∧ ∀ m ∈ ms, BodyOp (fun _ => False) true false m

section Parameters

variable {f : Ir.Function} {cx cx' : Context}

theorem Moves.trans {cx'' : Context} {regs regs' : List Register} (h : Moves cx cx' regs) (h' : Moves cx' cx'' regs') :
    Moves cx cx'' (regs ++ regs') := by
  obtain ⟨ms, hout, hms, hbody⟩ := h
  obtain ⟨ms', hout', hms', hbody'⟩ := h'
  refine ⟨ms ++ ms', by rw [hout', hout, List.append_assoc], ⟨fun m hm => ?_, ?_⟩, fun m hm => ?_⟩
  · exact (List.mem_append.mp hm).elim (hms.straight m) (hms'.straight m)
  · rw [List.filterMap_append, hms.copies, hms'.copies, List.map_append]
  · exact (List.mem_append.mp hm).elim (hbody m) (hbody' m)

theorem reg_virt {v : Ir.Value} {r : Reg} (hv : VirtValues cx) (h : (reg f v).run cx = .ok (r, cx')) :
    cx'.out = cx.out ∧ VirtValues cx' ∧ ∃ k, r = .virt k := by
  obtain ⟨_, _, hget, h⟩ := run_bind h
  cases hget
  split at h
  · next hr =>
    cases h
    exact ⟨rfl, hv, hv v r hr⟩
  · obtain ⟨ty, _, hty, h⟩ := run_bind h
    obtain ⟨-, rfl⟩ := run_lift hty
    obtain ⟨t, cx1, ht, h⟩ := run_bind h
    cases ht
    cases h
    refine ⟨rfl, fun u q hq => ?_, _, rfl⟩
    rw [List.lookup_cons] at hq
    split at hq
    · exact ⟨_, (Option.some.inj hq).symm⟩
    · exact hv u q hq

theorem parameter_moves {param : Ir.Value} {ty : Ir.Ty} {loc : ArgLoc} (hv : VirtValues cx)
    (h : (parameter f param ty loc).run cx = .ok ((), cx')) : VirtValues cx' ∧ Moves cx cx' loc.reg?.toList := by
  obtain ⟨d, cx1, hd, h⟩ := run_bind h
  obtain ⟨hout, hv1, k, rfl⟩ := reg_virt hv hd
  cases loc with
  | reg r =>
    cases h
    refine ⟨hv1, [_], by rw [← hout], ⟨by simp [Pseudo.isTerminator], rfl⟩, ?_⟩
    simpa using bodyOp_of_dst? rfl rfl
  | stack offset size =>
    obtain ⟨index, cx2, hindex, h⟩ := run_bind h
    cases hindex
    split at h
    · obtain ⟨prec, cx3, hprec, h⟩ := run_bind h
      obtain ⟨-, rfl⟩ := run_lift hprec
      cases h
      refine ⟨hv1, [_, _], by rw [← hout]; exact List.append_assoc cx1.out [_] [_],
        ⟨by simp [Pseudo.isTerminator], rfl⟩, ?_⟩
      simpa using ⟨bodyOp_of_dst? rfl rfl, bodyOp_of_dst? rfl rfl⟩
    · cases h
      refine ⟨hv1, [_], by rw [← hout], ⟨by simp [Pseudo.isTerminator], rfl⟩, ?_⟩
      simpa using bodyOp_of_dst? rfl rfl

theorem forM_parameter_moves {ps : List (Ir.Value × Ir.Ty × ArgLoc)} (hv : VirtValues cx)
    (h : (ps.forM fun p => parameter f p.1 p.2.1 p.2.2).run cx = .ok ((), cx')) :
    Moves cx cx' (ps.filterMap fun p => p.2.2.reg?) := by
  induction ps generalizing cx with
  | nil =>
    cases h
    exact ⟨[], by simp, ⟨by simp, rfl⟩, by simp⟩
  | cons p ps ih =>
    obtain ⟨_, cx1, hp, h⟩ := run_bind h
    obtain ⟨hv1, hmoves⟩ := parameter_moves hv hp
    rw [← List.singleton_append, List.filterMap_append]
    refine Moves.trans ?_ (ih hv1 h)
    cases hr : p.2.2.reg? <;> simpa [hr] using hmoves

/-- Parameters in registers are moved out of them, one after the other. -/
theorem parameters_moves (hv : VirtValues cx) (h : (parameters f).run cx = .ok ((), cx')) :
    Moves cx cx' f.argRegs := by
  obtain ⟨_, -, h⟩ := run_check h
  obtain ⟨_, hplan, h⟩ := run_check h
  obtain ⟨rfl, -⟩ := planArguments_eq_ok.mp hplan
  obtain ⟨_, cx2, hps, h⟩ := run_bind h
  have hlocs : (f.params.zip (f.paramTypes.zip (assignArguments f.paramTypes f.paramTypes.length).locs)).map
      (fun p => p.2.2) = (assignArguments f.paramTypes f.paramTypes.length).locs := by
    have hlen : f.paramTypes.length = f.params.length := List.length_map _
    have hlen' : (assignArguments f.paramTypes f.paramTypes.length).locs.length = f.paramTypes.length :=
      ArgState.length_place_locs _ _ _
    rw [← Function.comp_def Prod.snd Prod.snd, ← List.map_map, List.map_snd_zip (by simp; omega),
      List.map_snd_zip (by omega)]
  have hregs := congrArg (List.filterMap ArgLoc.reg?) hlocs
  rw [List.filterMap_map] at hregs
  have hmoves : Moves cx cx2 f.argRegs := by
    rw [Ir.Function.argRegs, ← hregs]
    exact forM_parameter_moves hv hps
  split at h
  · cases h
    exact hmoves
  · cases h
    exact hmoves

end Parameters

end Selection

end DirectPage
