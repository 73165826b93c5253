import DirectPage.Proofs.StreamGrowth

/-! Control that stays within a function.

Every branch waits for a label that comes to be bound to an instruction, and the code ends with an instruction that
control does not go past. While blocks are expanded this holds but for the labels of blocks to come, and for labels at
the end of the code if the next block is one that is kept, since such a block adds at least one instruction or
leads on to the next. -/
namespace DirectPage

def Instruction.closes : Instruction → Bool
  | implied .rts | implied .brk | bra _ | brl _ => true
  | _ => false

namespace Stream

structure Linked (live : List Nat) (g : Routine) (b : Nat) (s : Stream) : Prop where
  blocks : s.blocks = g.blocks.length
  pool : s.pool = g.pool
  wellFormed : s.WellFormed
  pools : s.PoolLabels
  long : s.blocks + s.pool.length ≤ s.labels.length
  bound : ∀ l < s.labels.length, l < b ∨ s.blocks ≤ l → ∃ d, s.labels[l]? = some (some d)
  waits : ∀ (k : Nat) i, s.instructions[k]? = some i → i.flow = .away → ∃ l, (k, l) ∈ s.fixups
  leads : ∀ k l, (k, l) ∈ s.fixups → l ∈ live ∨ s.blocks + s.pool.length ≤ l ∧ l < s.labels.length
  operands : ∀ (k : Nat) i l, s.instructions[k]? = some i → i.operand? = some (.label l) → l < s.blocks + s.pool.length

structure Sealed (live : List Nat) (s : Stream) : Prop where
  inside : ∀ l p, l ∈ live ∨ s.blocks + s.pool.length ≤ l → s.labels[l]? = some (some (.instr p)) →
    p < s.instructions.size
  ends : ∃ i, s.instructions.back? = some i ∧ i.closes = true

namespace Linked

variable {live : List Nat} {g : Routine} {b : Nat} {s t : Stream}

theorem empty (g : Routine) : Linked live g 0 (.empty g.name g.blocks.length g.pool) where
  blocks := rfl
  pool := rfl
  wellFormed := .empty _ _ _
  pools := .empty _ _ _
  long := by
    have hpool (pool : List (List UInt8)) (offset : Nat) : (poolLabels offset pool).length = pool.length := by
      induction pool generalizing offset with
      | nil => rfl
      | cons entry pool ih => rw [poolLabels, List.length_cons, ih, List.length_cons]
    simp [Stream.empty, hpool]
  bound l hl hb := by
    have hpool (pool : List (List UInt8)) (offset k : Nat) (hk : k < (poolLabels offset pool).length) :
        ∃ d, (poolLabels offset pool)[k]? = some (some d) := by
      induction pool generalizing offset k with
      | nil => cases hk
      | cons entry pool ih =>
        cases k with
        | zero => exact ⟨_, rfl⟩
        | succ k => exact ih (offset + entry.length) k (by simpa [poolLabels] using hk)
    have hle : g.blocks.length ≤ l := hb.resolve_left (Nat.not_lt_zero l)
    simp only [Stream.empty, List.length_append, List.length_replicate] at hl
    simp only [Stream.empty]
    rw [List.getElem?_append_right (by simpa using hle), List.length_replicate]
    exact hpool g.pool 0 _ (by omega)
  waits k i hi := by simp [Stream.empty] at hi
  leads k l hl := by simp [Stream.empty] at hl
  operands k i l hi := by simp [Stream.empty] at hi

/-- The label of a block is bound at its start. -/
theorem define (h : Linked live g b s) : Linked live g (b + 1) (s.define b) where
  blocks := h.blocks
  pool := h.pool
  wellFormed := h.wellFormed.define b
  pools := h.pools.define b
  long := by simpa [Stream.define] using h.long
  bound l hl hor := by
    have hlen := h.long
    simp only [Stream.define, List.length_set] at hl ⊢
    rw [List.getElem?_set]
    split
    · next he =>
      subst he
      exact ⟨_, if_pos hl⟩
    · exact h.bound l hl (hor.imp (by omega) id)
  waits := h.waits
  leads k l hl := by simpa [Stream.define] using h.leads k l hl
  operands := h.operands

/-- Operations that lead to blocks that are kept. -/
theorem grown {P : Instruction → Prop} (h : Linked live g b s) (hgrown : Grown P (· ∈ live) s t)
    (hP : ∀ i, P i → i.flow ≠ .away ∧ ∀ l, i.operand? = some (.label l) → l < s.blocks + s.pool.length) :
    Linked live g b t := by
  have hle := hgrown.labels_le
  refine ⟨hgrown.blocks.trans h.blocks, hgrown.pool.trans h.pool, hgrown.wellFormed h.wellFormed,
    hgrown.poolLabels h.pools, ?_, fun l hl hor => ?_, fun k i hi haway => ?_, fun k l hl => ?_, fun k i l hi hop => ?_⟩
  · rw [hgrown.blocks, hgrown.pool]
    exact Nat.le_trans h.long hle
  · rw [hgrown.blocks] at hor
    by_cases hlt : l < s.labels.length
    · obtain ⟨d, hd⟩ := h.bound l hlt hor
      exact ⟨d, hgrown.bound hd⟩
    · obtain ⟨p, hp⟩ := hgrown.bound_new (by omega) hl
      exact ⟨_, hp⟩
  · by_cases hk : k < s.instructions.size
    · obtain ⟨l, hl⟩ := h.waits k i (by rw [← hgrown.old k hk, hi]) haway
      exact ⟨l, hgrown.mem_fixups hl⟩
    · rcases hgrown.new k i (by omega) hi with hi | ⟨-, hl⟩
      · exact absurd haway (hP i hi).1
      · exact hl
  · rw [hgrown.blocks, hgrown.pool]
    obtain ⟨more, hmore, hall⟩ := hgrown.fixups
    rw [hmore] at hl
    rcases List.mem_append.mp hl with hl | hl
    · exact (h.leads k l hl).imp id fun ⟨h1, h2⟩ => ⟨h1, by omega⟩
    · exact (hall _ hl).imp id fun ⟨h1, h2⟩ => ⟨Nat.le_trans h.long h1, h2⟩
  · rw [hgrown.blocks, hgrown.pool]
    by_cases hk : k < s.instructions.size
    · exact h.operands k i l (by rw [← hgrown.old k hk, hi]) hop
    · rcases hgrown.new k i (by omega) hi with hi | ⟨hshort, -⟩
      · exact (hP i hi).2 l hop
      · rw [Instruction.operand?_of_short hshort] at hop
        cases hop

end Linked

end Stream

namespace Expansion

open Instruction

variable {live : List Nat} {g : Routine} {frame : Frame} {folding : Bool} {S : Scope}

structure Fits (live : List Nat) (g : Routine) (frame : Frame) (S : Scope) (m : Pseudo) : Prop where
  resolved : m.Resolved S
  target : ∀ c, m.target? = some c → c ∈ live
  blocks : S.blocks = g.blocks.length
  constants : S.constants = g.pool.length
  objects : S.objects = frame.places.length

/-- The last operation of a block adds an instruction that control does not go past, or leads on to the next block. -/
private theorem expandInst_last {b : Nat} {s t : Stream} {m : Pseudo} (hpass : m.passes = false)
    (htarget : ∀ c, m.target? = some c → c ∈ live) (h : expandInst frame folding b s m = .ok t) :
    t = s ∧ b + 1 ∈ live ∨ ∃ i, i.closes = true ∧ t.labels = s.labels ∧ t.instructions = s.instructions.push i := by
  cases m with
  | jump target =>
    rw [expandInst, jump] at h
    split at h
    · next hfold =>
      cases h
      rw [Bool.and_eq_true, beq_iff_eq] at hfold
      exact .inl ⟨rfl, hfold.2 ▸ htarget target rfl⟩
    · obtain ⟨label, -, h⟩ := bind_eq_ok.mp h
      cases h
      exact .inr ⟨.bra 0#32, rfl, rfl, rfl⟩
  | ret results =>
    cases h
    exact .inr ⟨.implied .rts, rfl, rfl, rfl⟩
  | trap =>
    cases h
    exact .inr ⟨.implied .brk, rfl, rfl, rfl⟩
  | _ => cases hpass

section Blocks

variable (hlive : ∀ b ∈ live, b < g.blocks.length) {s : Stream} {b c : Nat}
include hlive

private theorem gives_linked {m : Pseudo} (hs : s.Linked live g c) (hm : Fits live g frame S m) :
    Gives True (·.Linked live g c) (expandInst frame folding b s m) := by
  have htarget : ∀ c, m.target? = some c → c ∈ live ∧ c < s.blocks := fun c hc =>
    ⟨hm.target c hc, hs.blocks ▸ hlive c (hm.target c hc)⟩
  have hpool : S.constants = s.pool.length := by rw [hm.constants, hs.pool]
  refine (gives_expandInst hm.resolved (hm.blocks.trans hs.blocks.symm) htarget hpool hm.objects).mono fun t ht =>
    hs.grown ht ?_
  rintro i (hi | ⟨-, rfl⟩)
  · exact ⟨hi.stays, hi.label⟩
  · exact ⟨by rintro ⟨⟩, by rintro _ ⟨⟩⟩

private theorem gives_ops {ops : List Pseudo} (hs : s.Linked live g c) (hops : ∀ m ∈ ops, Fits live g frame S m) :
    Gives True (·.Linked live g c) (ops.foldlM (expandInst frame folding b) s) := by
  induction ops generalizing s with
  | nil => exact .ok hs
  | cons m ops ih =>
    rw [List.foldlM_cons]
    exact (gives_linked hlive hs (hops m (by simp))).andThen fun u hu => ih hu fun n hn => hops n (by simp [hn])

private theorem gives_block {block : List Pseudo} (hb : b < g.blocks.length) (hs : s.Linked live g b)
    (hsealed : b ∈ live ∨ s.Sealed live) (hended : b ∈ live → Ended block) (hempty : b ∉ live → block = [])
    (hops : ∀ m ∈ block, Fits live g frame S m) :
    Gives True (fun t => t.Linked live g (b + 1) ∧ (b + 1 ∈ live ∨ t.Sealed live))
      (expandBlock frame folding s b block) := by
  rw [expandBlock_of_lt (hs.blocks ▸ hb)]
  by_cases hkept : b ∈ live
  · obtain ⟨body, last, rfl, hbody, hlast⟩ := hended hkept
    have hfits := hops last (by simp)
    rw [List.foldlM_append]
    refine (gives_ops hlive hs.define fun m hm => hops m (by simp [hm])).andThen fun u hu => ?_
    rw [List.foldlM_cons]
    have hgives : Gives True (·.Linked live g (b + 1)) (expandInst frame folding b u last) :=
      gives_linked hlive hu hfits
    refine .bind hgives.grounded fun t ht => .ok ⟨hgives.each t ht, ?_⟩
    rcases expandInst_last hlast hfits.target ht with ⟨-, hnext⟩ | ⟨i, hi, hlabels, hinstrs⟩
    · exact .inl hnext
    · refine .inr ⟨fun l p _ hp => ?_, i, by rw [hinstrs, Array.back?_push], hi⟩
      rw [hlabels] at hp
      rw [hinstrs, Array.size_push]
      exact Nat.lt_succ_of_le (hu.wellFormed.labels_le l p hp)
  · rw [hempty hkept]
    have hseal := hsealed.resolve_left hkept
    refine .ok ⟨hs.define, .inr ⟨fun l p hl hp => ?_, hseal.ends⟩⟩
    simp only [Stream.define, List.getElem?_set] at hp
    split at hp
    · next he =>
      subst he
      rcases hl with hl | hl
      · exact absurd hl hkept
      · have hblocks : s.blocks = g.blocks.length := hs.blocks
        exact absurd (Nat.le_trans (Nat.le_add_right s.blocks s.pool.length) hl) (by omega)
    · exact hseal.inside l p hl hp

private theorem gives_blocks (done : List (List Pseudo)) {blocks : List (List Pseudo)}
    (hg : g.blocks = done ++ blocks) (hb : b = done.length) (hshaped : g.Shaped live) (hs : s.Linked live g b)
    (hsealed : b ∈ live ∨ s.Sealed live) (hops : ∀ block ∈ g.blocks, ∀ m ∈ block, Fits live g frame S m) :
    Gives True (fun t => t.Linked live g g.blocks.length ∧ (g.blocks.length ∈ live ∨ t.Sealed live))
      (expandBlocks frame folding s b blocks) := by
  induction blocks generalizing b s done with
  | nil =>
    rw [List.append_nil] at hg
    rw [hg, ← hb]
    exact .ok ⟨hs, hsealed⟩
  | cons block blocks ih =>
    have hblock : g.blocks[b]? = some block := by
      rw [hg, hb, List.getElem?_append_right (Nat.le_refl _), Nat.sub_self, List.getElem?_cons_zero]
    have hlt : b < g.blocks.length := (List.getElem?_eq_some_iff.mp hblock).1
    have hended : b ∈ live → Ended block := by
      intro hkept
      obtain ⟨block', hblock', h⟩ := hshaped.ended b hkept
      rwa [Option.some.inj (hblock.symm.trans hblock')]
    refine (gives_block hlive hlt hs hsealed hended (hshaped.empty b block hblock)
      (hops block (List.mem_of_getElem? hblock))).andThen fun t ht => ?_
    exact ih (done ++ [block]) (by rw [hg, List.append_assoc]; rfl) (by rw [hb, List.length_append]; rfl)
      ht.1 ht.2

end Blocks

/-- Expansion of a function whose blocks are kept or empty. -/
theorem gives_expand (hshaped : g.Shaped live) (hops : ∀ block ∈ g.blocks, ∀ m ∈ block, Fits live g frame S m) :
    Gives True (fun t => t.Linked live g g.blocks.length ∧ t.Sealed live) (g.expand frame folding) :=
  (gives_blocks hshaped.lt [] rfl rfl hshaped (.empty g) (.inl hshaped.entry) hops).mono fun _ ht =>
    ⟨ht.1, ht.2.resolve_left fun h => Nat.lt_irrefl _ (hshaped.lt _ h)⟩

end Expansion

namespace Stream

/-- A stream whose branches all lead to instructions, and whose last instruction control does not go past. -/
structure Closed (s : Stream) : Prop where
  wellFormed : s.WellFormed
  pools : s.PoolLabels
  waits : ∀ (k : Nat) i, s.instructions[k]? = some i → i.flow = .away → ∃ l, (k, l) ∈ s.fixups
  leads : ∀ k l, (k, l) ∈ s.fixups → (∃ p < s.instructions.size, s.labels[l]? = some (some (.instr p))) ∧
    ∀ j, s.poolLabel? j ≠ some l
  operands : ∀ (k : Nat) i l, s.instructions[k]? = some i → i.operand? = some (.label l) →
    ∃ d, s.labels[l]? = some (some d)
  ends : ∃ i, s.instructions.back? = some i ∧ i.closes = true

theorem Linked.closed {live : List Nat} {g : Routine} {s : Stream} (h : s.Linked live g g.blocks.length)
    (hsealed : s.Sealed live) (hlive : ∀ b ∈ live, b < g.blocks.length) : s.Closed where
  wellFormed := h.wellFormed
  pools := h.pools
  waits := h.waits
  leads k l hl := by
    have hblocks := h.blocks
    have hlong := h.long
    have hlead := h.leads k l hl
    have hlt : l < s.labels.length := by
      rcases hlead with hl | ⟨-, hl⟩
      · have := hlive l hl
        omega
      · exact hl
    have hpool (j : Nat) : s.poolLabel? j ≠ some l := by
      intro hj
      rw [poolLabel?, Option.ite_none_right_eq_some] at hj
      obtain ⟨hj, he⟩ := hj
      cases he
      rcases hlead with hl | ⟨hl, -⟩
      · have := hlive _ hl
        omega
      · omega
    obtain ⟨d, hd⟩ := h.bound l hlt (by omega)
    refine ⟨?_, hpool⟩
    cases d with
    | instr p => exact ⟨p, hsealed.inside l p (hlead.imp id And.left) hd, hd⟩
    | pool offset =>
      obtain ⟨j, hj, -⟩ := h.pools l offset hd
      exact absurd hj (hpool j)
  operands k i l hi hop := by
    have hlt := h.operands k i l hi hop
    have hlong := h.long
    have hblocks := h.blocks
    exact h.bound l (by omega) (by omega)
  ends := hsealed.ends

section Clean

variable {s : Stream} (h : s.Closed)
include h

/-- The last instruction is not removed: it is not redundant, and no label is at the end. -/
private theorem Closed.keeps_last : s.keeps[s.instructions.size - 1]? = some true := by
  obtain ⟨i, hi, hcloses⟩ := h.ends
  rw [Array.back?_eq_getElem?] at hi
  have hlt := (Array.getElem?_eq_some_iff.mp hi).1
  have hkeep : s.instructions.size - 1 < s.keeps.length := by rw [keeps_length]; exact hlt
  rw [List.getElem?_eq_getElem hkeep]
  cases hk : s.keeps[s.instructions.size - 1] with
  | true => rfl
  | false =>
    rcases superfluous_of_keeps (by rw [List.getElem?_eq_getElem hkeep, hk]) with ⟨l, hl, hplace⟩ | ⟨-, hred⟩
    · obtain ⟨⟨p, hp, hbound⟩, -⟩ := h.leads _ l hl
      rw [labelPlace?, hbound] at hplace
      have hplace : p = s.instructions.size - 1 + 1 := Option.some.inj hplace
      omega
    · obtain ⟨j, prev, cur, -, -, hcur, hred⟩ := hred
      cases hi.symm.trans hcur
      rcases Instruction.isReload_cases (Instruction.isReload_of_isRedundant hred).1 with ⟨x, rfl⟩ | rfl <;>
        cases hcloses

theorem Closed.cleanRound : s.cleanRound.Closed := by
  have hk := s.keeps_length
  have hlast := h.keeps_last
  have hlt : s.instructions.size - 1 < s.instructions.size := hk ▸ (List.getElem?_eq_some_iff.mp hlast).1
  have hmoved {k : Nat} {i : Instruction} (hi : s.cleanRound.instructions[k]? = some i) :
      ∃ j, s.keeps[j]? = some true ∧ newPlace s.keeps j = k ∧ s.instructions[j]? = some i := by
    have hsize := (Array.getElem?_eq_some_iff.mp hi).1
    rw [Stream.cleanRound, size_retain hk, newPlace_of_le (by omega)] at hsize
    obtain ⟨j, hj, rfl⟩ := exists_newPlace hsize
    exact ⟨j, hj, rfl, by rw [← instructions_retain hk hj]; exact hi⟩
  have hlabel {l : Nat} {d : LabelDef} (hd : s.labels[l]? = some (some d)) :
      s.cleanRound.labels[l]? = some (some (d.move s.keeps)) := by
    rw [Stream.cleanRound, retain_eq, List.getElem?_map, hd]
    rfl
  refine ⟨h.wellFormed.retain hk, h.pools.retain s.keeps, fun k i hi haway => ?_, fun k l hl => ?_,
    fun k i l hi hop => ?_, ?_⟩
  · obtain ⟨j, hj, rfl, hold⟩ := hmoved hi
    obtain ⟨l, hl⟩ := h.waits j i hold haway
    exact ⟨l, (mem_fixups_retain hj).mpr hl⟩
  · have hl' := hl
    rw [Stream.cleanRound, retain_eq] at hl'
    obtain ⟨⟨j, l'⟩, hf, hkept⟩ := List.mem_filterMap.mp hl'
    rw [Option.ite_none_right_eq_some] at hkept
    obtain ⟨hj, he⟩ := hkept
    cases he
    obtain ⟨⟨p, hp, hbound⟩, hpool⟩ := h.leads j l hf
    refine ⟨⟨newPlace s.keeps p, ?_, hlabel hbound⟩, hpool⟩
    rw [Stream.cleanRound, size_retain hk]
    exact Nat.lt_of_le_of_lt (newPlace_mono _ (show p ≤ s.instructions.size - 1 by omega)) (newPlace_lt hlast hlt)
  · obtain ⟨j, hj, rfl, hold⟩ := hmoved hi
    obtain ⟨d, hd⟩ := h.operands j i l hold hop
    exact ⟨_, hlabel hd⟩
  · obtain ⟨i, hi, hcloses⟩ := h.ends
    have hsize : s.cleanRound.instructions.size = newPlace s.keeps (s.instructions.size - 1) + 1 := by
      have hsucc := newPlace_succ s.keeps (s.instructions.size - 1)
      rw [if_pos hlast, Nat.sub_add_cancel (by omega)] at hsucc
      rw [Stream.cleanRound, size_retain hk, hsucc]
    refine ⟨i, ?_, hcloses⟩
    rw [Array.back?_eq_getElem?, hsize, Nat.add_sub_cancel, Stream.cleanRound, instructions_retain hk hlast,
      ← Array.back?_eq_getElem?, hi]

theorem Closed.cleaned (cleanup : Bool) : (if cleanup then s.clean else s).Closed := by
  split
  · exact clean_keeps (fun _ hs => hs.cleanRound) s h
  · exact h

end Clean

end Stream

variable {f : Ir.Function}

theorem Framing.gives_expand {sel : Selected} {al : Allocation.Allocated} {frame : Frame} {g : Routine}
    (h : Framing f sel al frame g) (folding : Bool) : Gives True Stream.Closed (g.expand frame folding) := by
  have hshaped := h.shaped.withFrame h.framed
  have hops : ∀ block ∈ g.blocks, ∀ m ∈ block,
      Expansion.Fits (Selection.reachable f) g frame (al.routine.scope al.plan) m := fun block hblock m hm =>
    ⟨h.resolved hblock hm, hshaped.leads block hblock m hm, h.length_blocks, congrArg List.length h.pool_eq,
      h.length_objects⟩
  exact (Expansion.gives_expand hshaped hops).mono fun t ht => ht.1.closed ht.2 hshaped.lt

theorem compile_laidOut {options : Options} {e : EncodedFunction} (h : f.compile options = .ok e) :
    ∃ sel al frame g t, Framing f sel al frame g ∧ g.expand frame options.folding = .ok t ∧ t.Closed ∧
      (if options.cleanup then t.clean else t).LaidOut e := by
  obtain ⟨frame, g, t, hframed, hexpand, hfinish⟩ := compile_eq_ok h
  obtain ⟨sel, al, hframing⟩ := framing_of_framed hframed
  have ht := (hframing.gives_expand options.folding).each t hexpand
  have hclean := ht.cleaned options.cleanup
  exact ⟨sel, al, frame, g, t, hframing, hexpand, ht, hclean.wellFormed.laidOut hclean.pools hfinish⟩

end DirectPage
