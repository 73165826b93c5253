import DirectPage.Proofs.CodeScope

/-! What expansion of an operation adds to a stream.

Old instructions stay where they are. Among the new ones each branch waits for a label: one that the operation leads
to, or one that the operation makes for itself and binds. -/
namespace DirectPage

namespace Stream

/-- A stream with instructions added behind its own, which are as described or branches, with new labels that are all
bound, and with branches that lead to certain labels or to new ones. -/
structure Grown (P : Instruction → Prop) (T : Nat → Prop) (s t : Stream) : Prop where
  name : t.name = s.name
  blocks : t.blocks = s.blocks
  pool : t.pool = s.pool
  size : s.instructions.size ≤ t.instructions.size
  old : ∀ k < s.instructions.size, t.instructions[k]? = s.instructions[k]?
  new : ∀ (k : Nat) i, s.instructions.size ≤ k → t.instructions[k]? = some i →
    P i ∨ i.relaxed?.isSome = true ∧ ∃ l, (k, l) ∈ t.fixups
  labels : ∃ places : List Nat, t.labels = s.labels ++ places.map (some ∘ .instr)
  fixups : ∃ more, t.fixups = s.fixups ++ more ∧ ∀ f ∈ more, T f.2 ∨ s.labels.length ≤ f.2 ∧ f.2 < t.labels.length
  wellFormed : s.WellFormed → t.WellFormed

namespace Grown

variable {P Q : Instruction → Prop} {T U : Nat → Prop} {s t u : Stream}

theorem refl (s : Stream) : Grown P T s s where
  name := rfl
  blocks := rfl
  pool := rfl
  size := Nat.le_refl _
  old _ _ := rfl
  new k i hk hi := absurd (Array.getElem?_eq_some_iff.mp hi).1 (Nat.not_lt.mpr hk)
  labels := ⟨[], by simp⟩
  fixups := ⟨[], by simp⟩
  wellFormed h := h

theorem labels_le (h : Grown P T s t) : s.labels.length ≤ t.labels.length := by
  obtain ⟨places, hlabels⟩ := h.labels
  rw [hlabels, List.length_append]
  exact Nat.le_add_right _ _

theorem mem_fixups (h : Grown P T s t) {f : Nat × Nat} (hf : f ∈ s.fixups) : f ∈ t.fixups := by
  obtain ⟨more, hmore, -⟩ := h.fixups
  rw [hmore]
  exact List.mem_append_left _ hf

theorem trans (h : Grown P T s t) (h' : Grown P T t u) : Grown P T s u where
  name := h'.name.trans h.name
  blocks := h'.blocks.trans h.blocks
  pool := h'.pool.trans h.pool
  size := Nat.le_trans h.size h'.size
  old k hk := (h'.old k (Nat.lt_of_lt_of_le hk h.size)).trans (h.old k hk)
  new k i hk hi := by
    by_cases hkt : k < t.instructions.size
    · rw [h'.old k hkt] at hi
      exact (h.new k i hk hi).imp id fun ⟨hshort, l, hl⟩ => ⟨hshort, l, h'.mem_fixups hl⟩
    · exact h'.new k i (by omega) hi
  labels := by
    obtain ⟨places, hlabels⟩ := h.labels
    obtain ⟨places', hlabels'⟩ := h'.labels
    exact ⟨places ++ places', by rw [hlabels', hlabels, List.map_append, List.append_assoc]⟩
  fixups := by
    obtain ⟨more, hmore, hT⟩ := h.fixups
    obtain ⟨more', hmore', hT'⟩ := h'.fixups
    have hle := h.labels_le
    have hle' := h'.labels_le
    refine ⟨more ++ more', by rw [hmore', hmore, List.append_assoc], fun f hf => ?_⟩
    rcases List.mem_append.mp hf with hf | hf
    · exact (hT f hf).imp id fun ⟨h1, h2⟩ => ⟨h1, by omega⟩
    · exact (hT' f hf).imp id fun ⟨h1, h2⟩ => ⟨by omega, h2⟩
  wellFormed hs := h'.wellFormed (h.wellFormed hs)

theorem mono (h : Grown P T s t) (hP : ∀ i, P i → Q i) (hT : ∀ l, T l → U l) : Grown Q U s t :=
  { h with
    new := fun k i hk hi => (h.new k i hk hi).imp (hP i) id
    fixups := by
      obtain ⟨more, hmore, hall⟩ := h.fixups
      exact ⟨more, hmore, fun f hf => (hall f hf).imp (hT f.2) id⟩ }

theorem emit {i : Instruction} (hi : P i) : Grown P T s (s.emit i) where
  name := rfl
  blocks := rfl
  pool := rfl
  size := by simp [Stream.emit]
  old k hk := by rw [Stream.emit, Array.getElem?_push, if_neg (by omega)]
  new k j hk hj := by
    rw [Stream.emit, Array.getElem?_push] at hj
    split at hj
    · cases hj
      exact .inl hi
    · have := (Array.getElem?_eq_some_iff.mp hj).1
      omega
  labels := ⟨[], by simp [Stream.emit]⟩
  fixups := ⟨[], by simp [Stream.emit]⟩
  wellFormed h := h.emit i

theorem emitAll {is : List Instruction} (h : ∀ i ∈ is, P i) : Grown P T s (s.emitAll is) := by
  induction is generalizing s with
  | nil => exact .refl s
  | cons i is ih => exact (emit (h i (by simp))).trans (ih fun j hj => h j (by simp [hj]))

theorem emitBranch {label : Nat} (h : T label) (cond : Option BranchCond) : Grown P T s (s.emitBranch cond label) where
  name := rfl
  blocks := rfl
  pool := rfl
  size := by simp [Stream.emitBranch]
  old k hk := by
    simp only [Stream.emitBranch]
    rw [Array.getElem?_push, if_neg (by omega)]
  new k j hk hj := by
    simp only [Stream.emitBranch] at hj
    rw [Array.getElem?_push] at hj
    split at hj
    · next he =>
      cases hj
      refine .inr ⟨by cases cond <;> rfl, label, ?_⟩
      simp [Stream.emitBranch, he]
    · have := (Array.getElem?_eq_some_iff.mp hj).1
      omega
  labels := ⟨[], by simp [Stream.emitBranch]⟩
  fixups := ⟨[(s.instructions.size, label)], rfl, by simpa using .inl h⟩
  wellFormed hs := hs.emitBranch cond label

/-- A label that is made first and bound last. -/
theorem fresh (h : Grown P (fun l => T l ∨ l = s.labels.length) s.newLabel.2 t) :
    Grown P T s (t.define s.labels.length) := by
  obtain ⟨places, hlabels⟩ := h.labels
  have hset : (t.define s.labels.length).labels =
      s.labels ++ (t.instructions.size :: places).map (some ∘ .instr) := by
    simp only [Stream.define, hlabels, Stream.newLabel, List.append_assoc, List.singleton_append,
      List.set_append_right _ _ (Nat.le_refl _), Nat.sub_self, List.set_cons_zero, List.map_cons, Function.comp_apply]
  refine ⟨h.name, h.blocks, h.pool, h.size, h.old, h.new, ⟨_, hset⟩, ?_,
    fun hs => (h.wellFormed hs.newLabel).define s.labels.length⟩
  obtain ⟨more, hmore, hall⟩ := h.fixups
  refine ⟨more, hmore, fun f hf => ?_⟩
  have hlen : s.newLabel.2.labels.length = s.labels.length + 1 := by simp [Stream.newLabel]
  have hle := h.labels_le
  rw [hlen] at hle
  have hdefine : (t.define s.labels.length).labels.length = t.labels.length := by simp [Stream.define]
  rw [hdefine]
  rcases hall f hf with (hT | hf) | ⟨h1, h2⟩
  · exact .inl hT
  · exact .inr ⟨hf ▸ Nat.le_refl _, by omega⟩
  · exact .inr ⟨by omega, h2⟩

/-- What is bound to a place stays, and what was added is bound to places. -/
theorem bound (h : Grown P T s t) {l : Nat} {d : LabelDef} (hl : s.labels[l]? = some (some d)) :
    t.labels[l]? = some (some d) := by
  obtain ⟨places, hlabels⟩ := h.labels
  rw [hlabels, List.getElem?_append_left (List.getElem?_eq_some_iff.mp hl).1, hl]

theorem bound_new (h : Grown P T s t) {l : Nat} (hl : s.labels.length ≤ l) (hlt : l < t.labels.length) :
    ∃ p, t.labels[l]? = some (some (.instr p)) := by
  obtain ⟨places, hlabels⟩ := h.labels
  have hp : l - s.labels.length < places.length := by
    rw [hlabels] at hlt
    simp only [List.length_append, List.length_map] at hlt
    omega
  refine ⟨places[l - s.labels.length], ?_⟩
  rw [hlabels, List.getElem?_append_right hl, List.getElem?_map, List.getElem?_eq_getElem hp]
  rfl

theorem bound_inv (h : Grown P T s t) {l : Nat} {d : LabelDef} (hl : t.labels[l]? = some (some d)) :
    s.labels[l]? = some (some d) ∨ s.labels.length ≤ l ∧ ∃ p, d = .instr p := by
  obtain ⟨places, hlabels⟩ := h.labels
  rw [hlabels] at hl
  by_cases hlt : l < s.labels.length
  · rw [List.getElem?_append_left hlt] at hl
    exact .inl hl
  · rw [List.getElem?_append_right (by omega), List.getElem?_map, Option.map_eq_some_iff] at hl
    obtain ⟨p, -, hp⟩ := hl
    exact .inr ⟨by omega, p, (Option.some.inj hp).symm⟩

theorem poolLabels (h : Grown P T s t) (hs : s.PoolLabels) : t.PoolLabels := by
  intro label offset hl
  have hlabel : t.poolLabel? = s.poolLabel? := by
    funext j
    simp only [poolLabel?, h.blocks, h.pool]
  rw [hlabel, h.pool]
  rcases h.bound_inv hl with hl | ⟨-, p, hp⟩
  · exact hs label offset hl
  · cases hp

end Grown

end Stream

namespace Expansion

open Instruction

variable {P : Instruction → Prop} {T : Nat → Prop} {s : Stream}

/-- The branches of a plan lead to its target or behind them. -/
theorem grown_emitPlan {target : Nat} (h : T target) (plan : Plan) : Stream.Grown P T s (emitPlan s plan target) := by
  refine Stream.Grown.fresh ?_
  have hplan (u : Stream) :
      Stream.Grown P (fun l => T l ∨ l = s.labels.length) u (plan.foldl (emitStep target s.labels.length) u) := by
    induction plan generalizing u with
    | nil => exact .refl u
    | cons step plan ih =>
      refine .trans (.emitBranch ?_ step.cond) (ih _)
      cases step.dest with
      | target => exact .inl h
      | skip => exact .inr rfl
  exact hplan s.newLabel.2

section Operation

variable {frame : Frame} {folding : Bool} {b : Nat} {m : Pseudo} {S : Scope} (hm : m.Resolved S)
  (hblocks : S.blocks = s.blocks) (htarget : ∀ c, m.target? = some c → T c ∧ c < s.blocks)

private theorem gives_branchLabel {c : Nat} (hT : T c) (hc : c < s.blocks) : Gives True T (branchLabel s c) := by
  have hlabel : s.blockLabel? c = some c := if_pos hc
  rw [branchLabel, hlabel]
  exact .ok hT

private theorem gives_selectCc {W : UInt8 → Prop} {labels : Nat} {cmp : Compare} {dst onTrue onFalse : Reg}
    (h : AllPhys True (cmp.regs ++ [dst, onTrue, onFalse])) (hW : ∀ d, Writable dst.register? d → W d) :
    Gives True (Stream.Grown (Tame W labels) T s) (selectCc s cmp dst onTrue onFalse) := by
  have hmove {src : Reg} (hsrc : src ∈ [dst, onTrue, onFalse]) : Gives True (Tames W labels) (move dst src) := by
    refine (gives_move fun hg r hr => h hg r ?_).mono fun is his i hi =>
      { his i hi with slot := fun d hd => hW d ((his i hi).slot d hd) }
    simp only [List.mem_cons, List.not_mem_nil, or_false, List.mem_append] at hr hsrc ⊢
    rcases hr with rfl | rfl
    · exact .inr (.inl rfl)
    · exact .inr hsrc
  refine .bind (h.assigned (by simp)) fun rd _ => .bind (h.assigned (by simp)) fun rt _ =>
    .bind (h.assigned (by simp)) fun re _ => ?_
  split
  · exact (hmove (by simp)).andThen fun is his => .ok (.emitAll his)
  · have hcompare : Gives True (fun c => Tames W labels c.1) (compare cmp) :=
      gives_compare fun hg r hr => h hg r (List.mem_append_left _ hr)
    refine hcompare.andThen fun ⟨code, plan, inverse⟩ hcode => ?_
    have hstart : Stream.Grown (Tame W labels) T s (s.emitAll code) := .emitAll hcode
    dsimp only
    split
    · exact (hmove (by simp)).andThen fun is his =>
        .ok (hstart.trans (.fresh ((grown_emitPlan (.inr rfl) plan).trans (.emitAll his))))
    · exact (hmove (by simp)).andThen fun first hfirst => (hmove (by simp)).andThen fun second hsecond =>
        .ok (hstart.trans (.fresh ((Stream.Grown.emitAll hfirst).trans
          ((grown_emitPlan (.inr rfl) inverse).trans (.emitAll hsecond)))))

include hm hblocks htarget in
/-- An operation adds instructions that write its result, branches to where it leads, and labels that are bound; a
return adds its instruction. -/
theorem gives_expandInst (hpool : S.constants = s.pool.length) (hobjects : S.objects = frame.places.length) :
    Gives True (Stream.Grown (fun i => i.Tame (Writable m.result?) (s.blocks + s.pool.length) ∨
      m.isReturn = true ∧ i = .implied .rts) T s) (expandInst frame folding b s m) := by
  have hcode (hret : m.isReturn = false) :
      Gives True (Stream.Grown (fun i => i.Tame (Writable m.result?) (s.blocks + s.pool.length) ∨
        m.isReturn = true ∧ i = .implied .rts) T s) (do return s.emitAll (← code s frame m)) :=
    (gives_code (fun _ => hm) (fun _ => ⟨hblocks, hpool, hobjects⟩) hret).andThen fun is his =>
      .ok (.emitAll fun i hi => .inl (his i hi))
  cases m with
  | selectCc cmp dst onTrue onFalse =>
    exact (gives_selectCc (fun _ => hm.regs) fun _ h => h).mono fun _ h => h.mono (fun _ => .inl) fun _ => id
  | brCc cmp target =>
    obtain ⟨hT, hlt⟩ := htarget target rfl
    have hcompare : Gives True (fun c => Tames (Writable none) (s.blocks + s.pool.length) c.1) (compare cmp) :=
      gives_compare fun _ => hm.regs
    exact (gives_branchLabel hT hlt).andThen fun label hlabel => hcompare.andThen fun c hc =>
      .ok (.trans (.emitAll fun i hi => .inl (hc i hi)) (grown_emitPlan hlabel c.2.1))
  | jump target =>
    obtain ⟨hT, hlt⟩ := htarget target rfl
    rw [expandInst, jump]
    split
    · exact .ok (.refl s)
    · exact (gives_branchLabel hT hlt).andThen fun label hlabel => .ok (.emitBranch hlabel none)
  | ret results => exact .ok (.emit (.inr ⟨rfl, rfl⟩))
  | _ => exact hcode rfl

end Operation

end Expansion

end DirectPage
