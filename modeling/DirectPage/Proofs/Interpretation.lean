import DirectPage.Proofs.Semantics

/-! Operations with any meaning: what an operation writes depends on what it is and on the contents that it reads, not
on the names of registers. What words do is one such meaning. -/
namespace DirectPage

structure Cells (V S : Type) where
  regs : Reg → V
  rest : S

def Pseudo.shape (m : Pseudo) : Pseudo := m.mapRegs fun _ => .virt 0

/-- What operations do: from the shape of an operation, the contents that it reads and the rest of the state come the
contents that it writes, by their position, and the rest of the state after it. A copy copies. -/
structure Meaning (V S : Type) where
  run : Pseudo → List V → S → (Nat → V) × S
  run_copy : ∀ v rest, run (.copy (.virt 0) (.virt 0)) [v] rest = (fun _ => v, rest)

namespace Meaning

variable {V S : Type} (M : Meaning V S)

def act (σ : Cells V S) (m : Pseudo) : Cells V S :=
  let out := M.run m.shape (m.uses.map σ.regs) σ.rest
  ⟨fun r => if r ∈ m.defs then out.1 (m.defs.idxOf r) else σ.regs r, out.2⟩

def actAll (σ : Cells V S) (ms : List Pseudo) : Cells V S := ms.foldl M.act σ

variable {σ τ : Cells V S} {m n : Pseudo} {r d s : Reg}

theorem actAll_append (ms ns : List Pseudo) : M.actAll σ (ms ++ ns) = M.actAll (M.actAll σ ms) ns :=
  List.foldl_append

theorem act_regs_of_notMem (h : r ∉ m.defs) : (M.act σ m).regs r = σ.regs r := if_neg h

theorem act_regs_of_single (h : m.defs = [d]) :
    (M.act σ m).regs d = (M.run m.shape (m.uses.map σ.regs) σ.rest).1 0 := by
  simp [act, h]

theorem act_copy : M.act σ (.copy d s) = ⟨fun r => if r = d then σ.regs s else σ.regs r, σ.rest⟩ := by
  have hrun := M.run_copy (σ.regs s) σ.rest
  have hdefs : (Pseudo.copy d s).defs = [d] := rfl
  simp only [act, hdefs, Pseudo.uses, Pseudo.shape, Pseudo.mapRegs, List.map_cons, List.map_nil, hrun,
    List.mem_singleton]

/-- Operations that differ in names only do the same with the same contents. -/
theorem run_congr (hshape : m.shape = n.shape) (huses : m.uses.map σ.regs = n.uses.map τ.regs)
    (hrest : σ.rest = τ.rest) :
    M.run m.shape (m.uses.map σ.regs) σ.rest = M.run n.shape (n.uses.map τ.regs) τ.rest := by
  rw [hshape, huses, hrest]

end Meaning

namespace Pseudo

def compute (m : Pseudo) (words : List Word) (objects : Nat → Word) : Option Word :=
  match m, words with
  | loadImm _ value, _ => some value
  | copy .., [w] | store .., w :: _ => some w
  | alu op .., [l, r] => some (op.eval l r)
  | aluImm op _ _ imm, [l] => some (op.eval l imm)
  | mulDiv op .., [l, r] => op.eval l r
  | shift kind _ _ (.imm n), [w] => some (kind.eval w (n.toNat % 32))
  | shift kind _ _ (.reg _), [w, n] => some (kind.eval w (n.toNat % 32))
  | unary op .., [w] => some (op.eval w)
  | load _ _ _ (.frame index) _, _ => some (objects index)
  | selectCc (.int cc _ (.reg _)) .., [l, r, t, e] => some (if cc.holds l r then t else e)
  | selectCc (.int cc _ (.imm k)) .., [l, t, e] => some (if cc.holds l k then t else e)
  | _, _ => none

theorem result_eq_compute (m : Pseudo) (st : Store) :
    m.result st = m.shape.compute (m.uses.map st.regs) st.objects := by
  cases m with
  | shift _ _ _ x | load _ _ _ x | store _ _ x | fload _ _ x | fstore _ _ x | call x => cases x <;> rfl
  | selectCc cmp | brCc cmp => rcases cmp with ⟨_, _, _ | _⟩ | _ <;> rfl
  | _ => rfl

end Pseudo

namespace Meaning

def words : Meaning Word (Option (Nat → Word)) where
  run m ws objects? :=
    let w? := m.compute ws (objects?.getD fun _ => 0#32)
    (fun _ => w?.getD 0#32, w?.bind fun w => objects?.map fun objects =>
      match m.object? with
      | some i => fun j => if j = i then w else objects j
      | none => objects)
  run_copy w objects? := by cases objects? <;> rfl

def ofStore (st : Store) : Cells Word (Option (Nat → Word)) := ⟨st.regs, some st.objects⟩

variable {m : Pseudo} {st : Store}

/-- An operation with a word writes the register of its result and nothing else. -/
private theorem defs_of_result {w : Word} (h : m.result st = some w) : m.defs = m.dst?.toList := by
  cases m with
  | call target args clobbers => cases h
  | pop reg => cases h
  | _ => rfl

/-- An operation that writes a frame object has no other result. -/
private theorem dst?_of_object? {i : Nat} (h : m.object? = some i) : m.dst? = none := by
  cases m with
  | store src width base offset => rfl
  | _ => cases h

theorem words_act {st' : Store} (h : m.eval st = some st') : words.act (ofStore st) m = ofStore st' := by
  obtain ⟨w, hresult, rfl⟩ := Option.map_eq_some_iff.mp h
  have hcompute : m.shape.compute (m.uses.map st.regs) st.objects = some w := by rw [← m.result_eq_compute, hresult]
  have hobject : m.shape.object? = m.object? := m.object?_mapRegs _
  simp only [act, words, ofStore, Option.getD_some, hcompute, hobject, Option.bind_some, Option.map_some,
    defs_of_result hresult, Pseudo.commit]
  cases hobject : m.object? with
  | some i =>
    rw [dst?_of_object? hobject]
    simp [Store.put]
  | none =>
    cases m.dst? with
    | none => simp
    | some d => simp [Store.set]

/-- A state in which an operation had no result stays one. -/
theorem words_act_rest {σ : Cells Word (Option (Nat → Word))} (h : σ.rest = none) : (words.act σ m).rest = none := by
  simp [act, words, h]

theorem words_act_eq_none (h : m.eval st = none) : (words.act (ofStore st) m).rest = none := by
  have hcompute : m.shape.compute (m.uses.map st.regs) st.objects = none := by
    rw [← m.result_eq_compute]
    exact Option.map_eq_none_iff.mp h
  simp [act, words, ofStore, hcompute]

/-- Operations on words do what the evaluation of operations says, and where that has no result, they have none. -/
theorem words_actAll (st : Store) (ms : List Pseudo) :
    (∀ st', Pseudo.evalAll st ms = some st' → words.actAll (ofStore st) ms = ofStore st') ∧
      (Pseudo.evalAll st ms = none → (words.actAll (ofStore st) ms).rest = none) := by
  induction ms generalizing st with
  | nil =>
    refine ⟨?_, fun h => (by cases h)⟩
    rintro st' ⟨⟩
    rfl
  | cons m ms ih =>
    rw [Pseudo.evalAll_cons]
    cases hm : m.eval st with
    | some st1 =>
      have hact : words.actAll (ofStore st) (m :: ms) = words.actAll (ofStore st1) ms := by
        rw [actAll, List.foldl_cons, words_act hm]
        rfl
      rw [hact]
      exact ih st1
    | none =>
      -- no operation gives the objects back
      have hstays (σ : Cells Word (Option (Nat → Word))) (h : σ.rest = none) : (words.actAll σ ms).rest = none := by
        clear ih
        induction ms generalizing σ with
        | nil => exact h
        | cons m ms ih => exact ih _ (words_act_rest h)
      exact ⟨fun _ h => (by cases h), fun _ => hstays _ (words_act_eq_none hm)⟩

end Meaning

end DirectPage
