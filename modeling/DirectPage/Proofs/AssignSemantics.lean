import DirectPage.Proofs.Path
import DirectPage.Proofs.Semantics

/-! Operations over assigned registers compute what they computed over virtual ones. -/
namespace DirectPage

def Store.pull (g : Reg → Reg) (st : Store) : Store := { st with regs := fun r => st.regs (g r) }

theorem Store.regs_pull (g : Reg → Reg) (st : Store) (r : Reg) : (st.pull g).regs r = st.regs (g r) := rfl

/-- A renamed operation does the same, as far as registers go whose names are not mixed up: those that are
live before it, and those that are live behind it. -/
theorem Pseudo.eval_mapRegs {m : Pseudo} (hm : m.isWordOp = true) {g : Reg → Reg} (before behind : Reg → Prop)
    {st st' : Store} (hr : ∀ u, before u → st.regs u = st'.regs (g u)) (ho : st.objects = st'.objects)
    (huses : ∀ u ∈ m.uses, before u) (hkeep : ∀ u, behind u → u ∉ m.defs → before u)
    (hsep : ∀ u d, behind u → d ∈ m.defs → u ≠ d → g u ≠ g d) :
    Option.Rel (fun s s' => (∀ u, behind u → s.regs u = s'.regs (g u)) ∧ s.objects = s'.objects)
      (m.eval st) ((m.mapRegs g).eval st') := by
  have hres : m.result st = (m.mapRegs g).result st' := by
    rw [result_mapRegs hm]
    exact result_congr hm (fun u hu => hr u (huses u hu)) fun i _ => congrFun ho i
  rw [eval, eval, hres]
  refine rel_map ?_
  cases (m.mapRegs g).result st' with
  | none => exact .none
  | some w =>
    refine .some ?_
    have hdefs := defs_of_isWordOp hm
    rw [commit, commit, object?_mapRegs, dst?_mapRegs]
    rcases target_of_isWordOp hm with ⟨index, hi, hd⟩ | ⟨dst, hi, hd⟩
    · simp only [hi]
      refine ⟨fun u hu => hr u (hkeep u hu (by simp [hdefs, hd])), ?_⟩
      simp only [Store.put, ho]
    · simp only [hi, hd, Option.map_some]
      refine ⟨fun u hu => ?_, ho⟩
      by_cases he : u = dst
      · subst he
        simp
      · have hg : g u ≠ g dst := hsep u dst hu (by simp [hdefs, hd]) he
        rw [Store.regs_set_ne _ he, Store.regs_set_ne _ hg]
        exact hr u (hkeep u hu (by simp [hdefs, hd, he]))

namespace Allocation

variable {f : Routine} {reserved : Reserved} {a : Assignment} {ms : List Pseudo} {rs : List Register}

variable (h : linearScan f reserved = .ok a) (hs : a.spilled = []) (hb : f.blocks = [ms ++ [Pseudo.ret rs]])
  (hw : ∀ m ∈ ms, m.isWordOp = true)

include h hs hb hw

private theorem evalAll_rest {done rest : List Pseudo} (hms : ms = done ++ rest) {st st' : Store}
    (hr : ∀ u, LiveAt f 0 done.length u → st.regs u = st'.regs (a.regMap.apply u)) (ho : st.objects = st'.objects) :
    Option.Rel (fun s s' => ∀ r ∈ rs, s.regs (.phys r) = s'.regs (.phys r))
      (Pseudo.evalAll st rest) (Pseudo.evalAll st' (rest.map (·.mapRegs a.regMap.apply))) := by
  induction rest generalizing done st st' with
  | nil =>
    refine .some fun r hrs => hr (.phys r) ?_
    rw [List.append_nil] at hms
    subst hms
    have hret : opAt? f 0 ms.length = some (.ret rs) := by simp [opAt?, hb]
    exact .of_op hret (.inl (List.mem_map.mpr ⟨r, hrs, rfl⟩))
  | cons m rest ih =>
    have hm : opAt? f 0 done.length = some m := by simp [opAt?, hb, hms]
    rw [List.map_cons, Pseudo.evalAll_cons, Pseudo.evalAll_cons]
    have hms' : ms = (done ++ [m]) ++ rest := by rw [hms, List.append_cons]
    refine rel_bind (Pseudo.eval_mapRegs (hw m (by simp [hms])) (LiveAt f 0 done.length)
      (LiveAt f 0 (done.length + 1)) hr ho (fun u hu => .of_op hm (.inl hu))
      (fun u hu hd => .of_op hm (.inr ⟨hd, hu⟩))
      fun u d hu hd hne => linearScan_separates h hs hm hd hu hne) fun s s' hss => ?_
    exact ih hms' (by simpa using hss.1) hss.2

theorem evalAll_assign (st : Store) :
    Option.Rel (fun s s' => ∀ r ∈ rs, s.regs (.phys r) = s'.regs (.phys r))
      (Pseudo.evalAll (st.pull a.regMap.apply) ms)
      (Pseudo.evalAll st (ms.map (·.mapRegs a.regMap.apply))) :=
  evalAll_rest h hs hb hw (List.nil_append ms).symm (fun _ _ => rfl) rfl

end Allocation

end DirectPage
