import DirectPage.Frame

/-! How frames are built, step by step, before they are laid out. -/
namespace DirectPage

structure FramePlan.Grows (p q : FramePlan) : Prop where
  objects : ∃ more, q.objects = p.objects ++ more
  varSized : p.hasVarSized = true → q.hasVarSized = true
  hasCalls : p.hasCalls = true → q.hasCalls = true
  maxCallFrame : p.maxCallFrame ≤ q.maxCallFrame

namespace FramePlan.Grows

variable {p q r : FramePlan}

theorem refl (p : FramePlan) : Grows p p := ⟨⟨[], by simp⟩, id, id, Nat.le_refl _⟩

theorem trans (h : Grows p q) (h' : Grows q r) : Grows p r := by
  obtain ⟨more, hmore⟩ := h.objects
  obtain ⟨more', hmore'⟩ := h'.objects
  exact ⟨⟨more ++ more', by rw [hmore', hmore, List.append_assoc]⟩, h'.varSized ∘ h.varSized, h'.hasCalls ∘ h.hasCalls,
    Nat.le_trans h.maxCallFrame h'.maxCallFrame⟩

theorem object (h : Grows p q) {i : Nat} {o : FrameObject} (hi : p.objects[i]? = some o) : q.objects[i]? = some o := by
  obtain ⟨more, hmore⟩ := h.objects
  rw [hmore, List.getElem?_append_left (List.getElem?_eq_some_iff.mp hi).1, hi]

theorem length_objects (h : Grows p q) : p.objects.length ≤ q.objects.length := by
  obtain ⟨more, hmore⟩ := h.objects
  rw [hmore, List.length_append]
  exact Nat.le_add_right _ _

theorem push (p : FramePlan) (o : FrameObject) : Grows p (p.push o).2 := ⟨⟨[o], rfl⟩, id, id, Nat.le_refl _⟩

end FramePlan.Grows

inductive FrameOp
  | addLocal (size align : Nat)
  | addIncoming (offset size : Nat)
  | returnAddressIndex
  | setVararg (offset : Nat)
  | noteCall (size : Nat)
  | setVarSized
  | setAddressTaken
  | setCalleeSaved (rs : List Register)
  deriving DecidableEq, Repr

namespace FrameOp

def apply (p : FramePlan) : FrameOp → Option Nat × FramePlan
  | addLocal size align => ((p.addLocal size align).1, (p.addLocal size align).2)
  | addIncoming offset size => ((p.addIncoming offset size).1, (p.addIncoming offset size).2)
  | returnAddressIndex => (p.returnAddressIndex.1, p.returnAddressIndex.2)
  | setVararg offset => ((p.setVararg offset).1, (p.setVararg offset).2)
  | noteCall size => (none, p.noteCall size)
  | setVarSized => (none, { p with hasVarSized := true })
  | setAddressTaken => (none, { p with addressTaken := true })
  | setCalleeSaved rs => (none, { p with calleeSaved := rs })

def object? : FrameOp → Option FrameObject
  | addLocal size align => some (.local size (max align 1))
  | addIncoming offset size => some (.incoming offset size)
  | returnAddressIndex => some .returnAddress
  | setVararg offset => some (.incoming offset 0)
  | _ => none

theorem apply_grows (op : FrameOp) (p : FramePlan) : p.Grows (op.apply p).2 := by
  cases op with
  | returnAddressIndex =>
    simp only [apply, FramePlan.returnAddressIndex]
    split
    · exact .refl p
    · exact ⟨⟨[_], rfl⟩, id, id, Nat.le_refl _⟩
  | noteCall size => exact ⟨⟨[], by simp [apply, FramePlan.noteCall]⟩, id, fun _ => rfl, Nat.le_max_left _ _⟩
  | setVarSized => exact ⟨⟨[], by simp [apply]⟩, fun _ => rfl, id, Nat.le_refl _⟩
  | setAddressTaken | setCalleeSaved => exact ⟨⟨[], by simp [apply]⟩, id, id, Nat.le_refl _⟩
  | _ => exact ⟨⟨[_], rfl⟩, id, id, Nat.le_refl _⟩

/-- The steps of selection. They leave local objects and variadic arguments alone, and calls take whole words. -/
def IsSelected : FrameOp → Prop
  | addIncoming .. | returnAddressIndex | setVarSized | setAddressTaken => True
  | noteCall size => wordSize ∣ size
  | _ => False

def IsWhole : FrameOp → Prop
  | noteCall size => wordSize ∣ size
  | _ => True

theorem IsSelected.isWhole {op : FrameOp} (h : op.IsSelected) : op.IsWhole := by
  cases op with
  | noteCall size => exact h
  | _ => trivial

theorem IsSelected.vararg {op : FrameOp} (h : op.IsSelected) (p : FramePlan) : (op.apply p).2.vararg = p.vararg := by
  cases op with
  | returnAddressIndex =>
    simp only [apply, FramePlan.returnAddressIndex]
    split <;> rfl
  | addLocal | setVararg | setCalleeSaved => cases h
  | _ => rfl

end FrameOp

namespace FramePlan

def steps (p : FramePlan) (ops : List FrameOp) : FramePlan := ops.foldl (fun p op => (op.apply p).2) p

def build (ops : List FrameOp) : FramePlan := steps {} ops

theorem steps_append (p : FramePlan) (pre ops : List FrameOp) : p.steps (pre ++ ops) = (p.steps pre).steps ops :=
  List.foldl_append

theorem steps_grows (p : FramePlan) (ops : List FrameOp) : p.Grows (p.steps ops) := by
  induction ops generalizing p with
  | nil => exact .refl p
  | cons op ops ih => exact (op.apply_grows p).trans (ih _)

def Reaches (p q : FramePlan) : Prop := ∃ ops, (∀ op ∈ ops, op.IsSelected) ∧ q = p.steps ops

section Reaches

variable {p q r : FramePlan}

theorem Reaches.refl (p : FramePlan) : p.Reaches p := ⟨[], by simp, rfl⟩

theorem Reaches.step {op : FrameOp} (h : op.IsSelected) (hq : q = (op.apply p).2) : p.Reaches q :=
  ⟨[op], by simpa using h, hq⟩

theorem Reaches.trans (h : p.Reaches q) (h' : q.Reaches r) : p.Reaches r := by
  obtain ⟨ops, hops, rfl⟩ := h
  obtain ⟨ops', hops', rfl⟩ := h'
  refine ⟨ops ++ ops', fun op hop => ?_, (steps_append p ops ops').symm⟩
  exact (List.mem_append.mp hop).elim (hops op) (hops' op)

theorem Reaches.grows (h : p.Reaches q) : p.Grows q := by
  obtain ⟨ops, -, rfl⟩ := h
  exact p.steps_grows ops

theorem Reaches.vararg (h : p.Reaches q) : q.vararg = p.vararg := by
  obtain ⟨ops, hops, rfl⟩ := h
  induction ops generalizing p with
  | nil => rfl
  | cons op ops ih =>
    exact (ih fun op hop => hops op (List.mem_cons_of_mem _ hop)).trans ((hops op List.mem_cons_self).vararg p)

end Reaches

structure Sound (p : FramePlan) : Prop where
  aligned : ∀ size align, .local size align ∈ p.objects → 0 < align
  returned : ∀ i, p.returnAddress = some i → p.objects[i]? = some .returnAddress

private theorem Sound.push {p q : FramePlan} (hp : p.Sound) {o : FrameObject} (hobjects : q.objects = p.objects ++ [o])
    (halign : ∀ size align, o = .local size align → 0 < align)
    (hreturned : ∀ i, q.returnAddress = some i → p.returnAddress = some i ∨ i = p.objects.length ∧ o = .returnAddress) :
    q.Sound := by
  refine ⟨fun size align hm => ?_, fun i hi => ?_⟩
  · rw [hobjects, List.mem_append, List.mem_singleton] at hm
    rcases hm with hm | hm
    · exact hp.aligned size align hm
    · exact halign size align hm.symm
  · rw [hobjects]
    rcases hreturned i hi with hold | ⟨rfl, rfl⟩
    · have hget := hp.returned i hold
      rw [List.getElem?_append_left (List.getElem?_eq_some_iff.mp hget).1, hget]
    · exact List.getElem?_concat_length

/-- One step. -/
theorem apply_sound {p : FramePlan} (hp : p.Sound) (op : FrameOp) :
    (op.apply p).2.Sound ∧
      ∀ i o, (op.apply p).1 = some i → op.object? = some o → (op.apply p).2.objects[i]? = some o := by
  cases op with
  | addLocal size align =>
    refine ⟨hp.push rfl ?_ fun i hi => .inl hi, ?_⟩
    · rintro size' align' ⟨⟩
      exact Nat.lt_of_lt_of_le Nat.zero_lt_one (Nat.le_max_right _ _)
    · rintro i o ⟨⟩ ⟨⟩
      exact List.getElem?_concat_length
  | returnAddressIndex =>
    simp only [FrameOp.apply, returnAddressIndex]
    cases hreturn : p.returnAddress with
    | some k =>
      refine ⟨hp, ?_⟩
      rintro i o ⟨⟩ ⟨⟩
      exact hp.returned k hreturn
    | none =>
      refine ⟨hp.push rfl (by simp) fun i hi => .inr ⟨(Option.some.inj hi).symm, rfl⟩, ?_⟩
      rintro i o ⟨⟩ ⟨⟩
      exact List.getElem?_concat_length
  | addIncoming offset size | setVararg offset =>
    refine ⟨hp.push rfl (by simp) fun i hi => .inl hi, ?_⟩
    rintro i o ⟨⟩ ⟨⟩
    exact List.getElem?_concat_length
  | _ =>
    -- the other steps set something else and leave objects alone
    exact ⟨⟨hp.aligned, hp.returned⟩, by simp [FrameOp.object?]⟩

theorem Sound.steps {p : FramePlan} (hp : p.Sound) (ops : List FrameOp) : (p.steps ops).Sound := by
  induction ops generalizing p with
  | nil => exact hp
  | cons op ops ih => exact ih (apply_sound hp op).1

theorem build_sound (ops : List FrameOp) : (build ops).Sound := Sound.steps ⟨by simp, by simp⟩ ops

theorem build_append (pre ops : List FrameOp) : build (pre ++ ops) = (build pre).steps ops := List.foldl_append

/-- The index that a step gives stays that of its object. -/
theorem build_object {pre post : List FrameOp} {op : FrameOp} {i : Nat} {o : FrameObject}
    (hi : (op.apply (build pre)).1 = some i) (ho : op.object? = some o) :
    (build (pre ++ op :: post)).objects[i]? = some o := by
  rw [build_append]
  exact (steps_grows _ post).object ((apply_sound (build_sound pre) op).2 i o hi ho)

theorem build_noted {ops : List FrameOp} {n : Nat} (h : .noteCall n ∈ ops) :
    (build ops).hasCalls = true ∧ n ≤ (build ops).maxCallFrame := by
  obtain ⟨pre, post, rfl⟩ := List.append_of_mem h
  have hgrows := steps_grows ((build pre).noteCall n) post
  rw [build_append]
  exact ⟨hgrows.hasCalls rfl, Nat.le_trans (Nat.le_max_right _ _) hgrows.maxCallFrame⟩

end FramePlan

end DirectPage
