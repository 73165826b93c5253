import DirectPage.Proofs.Interval

/-! Control flow of functions in pseudo-operations, and code put around operations.

A function is woven from another if each operation became a piece of straight code around one
operation that sends control where the old one did. Control then goes the same ways in both. -/
namespace DirectPage

open Allocation (opAt? opAt?_some)

namespace Pseudo

def passes : Pseudo → Bool
  | jump _ | ret _ | trap => false
  | _ => true

def target? : Pseudo → Option Ir.BlockId
  | brCc _ target | jump target => some target
  | _ => none

variable {m : Pseudo}

theorem passes_of_not_isTerminator (h : m.isTerminator = false) : m.passes = true := by
  cases m <;> first | rfl | cases h

theorem isTerminator_of_target? {c : Nat} (h : m.target? = some c) : m.isTerminator = true := by
  cases m <;> first | rfl | cases h

end Pseudo

/-- Ways through a function from its entry: the operations executed so far, as block and index,
and the place that control has come to. A block that ends runs into the next one. -/
inductive Routine.Walk (f : Routine) : List (Nat × Nat) → Nat → Nat → Prop
  | entry : f.Walk [] 0 0
  | pass {done : List (Nat × Nat)} {b k : Nat} {m : Pseudo} :
      f.Walk done b k → opAt? f b k = some m → m.passes = true → f.Walk (done ++ [(b, k)]) b (k + 1)
  | jump {done : List (Nat × Nat)} {b k c : Nat} {m : Pseudo} :
      f.Walk done b k → opAt? f b k = some m → m.target? = some c → f.Walk (done ++ [(b, k)]) c 0
  | fall {done : List (Nat × Nat)} {b : Nat} {block : List Pseudo} :
      f.Walk done b block.length → f.blocks[b]? = some block → f.Walk done (b + 1) 0

def Routine.run (f : Routine) (done : List (Nat × Nat)) : List Pseudo :=
  done.filterMap fun at' => opAt? f at'.1 at'.2

theorem Routine.run_append (f : Routine) (done rest : List (Nat × Nat)) :
    f.run (done ++ rest) = f.run done ++ f.run rest := List.filterMap_append

variable {done : List (Nat × Nat)} {f : Routine} {b k : Nat}

theorem Routine.Walk.index_le {block : List Pseudo} (h : f.Walk done b k) (hb : f.blocks[b]? = some block) :
    k ≤ block.length := by
  cases h with
  | entry => omega
  | pass _ hm _ =>
    obtain ⟨block', hb', hk⟩ := opAt?_some hm
    rw [hb] at hb'
    cases hb'
    exact (List.getElem?_eq_some_iff.mp hk).1
  | jump => omega
  | fall => omega

/-- Control has passed every operation before the one it has come to. -/
theorem Routine.Walk.passed (h : f.Walk done b k) {j : Nat} (hj : j < k) :
    ∃ m, opAt? f b j = some m ∧ m.passes = true := by
  induction h with
  | entry => omega
  | @pass _ b k m _ hm hpass ih =>
    rcases Nat.lt_succ_iff_lt_or_eq.mp hj with hlt | rfl
    · exact ih hlt
    · exact ⟨m, hm, hpass⟩
  | jump => omega
  | fall => omega

/-- Control has gone on from every operation that was executed. -/
theorem Routine.Walk.of_mem_done (h : f.Walk done b k) {at' : Nat × Nat} (hat : at' ∈ done) :
    ∃ m, opAt? f at'.1 at'.2 = some m ∧ (m.passes = true ∨ ∃ c, m.target? = some c) := by
  induction h with
  | entry => cases hat
  | @pass _ b k m _ hm hpass ih =>
    rcases List.mem_append.mp hat with hat | hat
    · exact ih hat
    · cases List.mem_singleton.mp hat
      exact ⟨m, hm, .inl hpass⟩
  | @jump _ b k c m _ hm htarget ih =>
    rcases List.mem_append.mp hat with hat | hat
    · exact ih hat
    · cases List.mem_singleton.mp hat
      exact ⟨m, hm, .inr ⟨c, htarget⟩⟩
  | fall _ _ ih => exact ih hat

def entryPlaces (n : Nat) : List (Nat × Nat) := (List.range n).map fun i => (0, i)

def Entered (n : Nat) (done : List (Nat × Nat)) : Prop :=
  ∃ tail, done = entryPlaces n ++ tail ∧ ∀ at' ∈ tail, at'.1 = 0 → n ≤ at'.2

theorem Entered.start (n : Nat) : Entered n (entryPlaces n) := ⟨[], by simp, by simp⟩

theorem Entered.concat {n : Nat} (h : Entered n done) (hk : b = 0 → n ≤ k) : Entered n (done ++ [(b, k)]) := by
  obtain ⟨tail, rfl, htail⟩ := h
  refine ⟨tail ++ [(b, k)], List.append_assoc .., fun at' hat => ?_⟩
  rcases List.mem_append.mp hat with hat | hat
  · exact htail at' hat
  · cases List.mem_singleton.mp hat
    exact hk

variable {pre rest : List Pseudo}

section

variable {m : Pseudo} (hb : f.blocks[0]? = some (pre ++ rest)) (hpre : ∀ m ∈ pre, m.isTerminator = false)

include hb hpre

theorem length_le_of_isTerminator (hm : opAt? f 0 k = some m) (hend : m.isTerminator = true) : pre.length ≤ k := by
  refine Nat.not_lt.mp fun hlt => ?_
  rw [opAt?, hb, Option.bind_some, List.getElem?_append_left hlt] at hm
  rw [hpre m (List.mem_of_getElem? hm)] at hend
  cases hend

variable (hback : ∀ b k m, opAt? f b k = some m → m.target? ≠ some 0) (h : f.Walk done b k)

include hback h

/-- If no operation sends control to the entry block, straight code at its start is executed
first of all, and only once. -/
theorem Routine.Walk.enter :
    (b = 0 ∧ k ≤ pre.length ∧ done = entryPlaces k) ∨ (b = 0 → pre.length ≤ k) ∧ Entered pre.length done := by
  have hstart := Entered.start pre.length
  induction h with
  | entry => exact .inl ⟨rfl, Nat.zero_le _, rfl⟩
  | @pass done b k m _ hm hpass ih =>
    rcases ih with ⟨rfl, hle, rfl⟩ | ⟨hk, hdone⟩
    · rcases Nat.lt_or_eq_of_le hle with hlt | rfl
      · refine .inl ⟨rfl, hlt, ?_⟩
        rw [entryPlaces, entryPlaces, List.range_succ, List.map_append]
        rfl
      · exact .inr ⟨fun _ => Nat.le_succ _, hstart.concat fun _ => Nat.le_refl _⟩
    · exact .inr ⟨fun h0 => Nat.le_succ_of_le (hk h0), hdone.concat hk⟩
  | @jump done b k c m _ hm htarget ih =>
    have hc : c ≠ 0 := fun h0 => hback b k m hm (h0 ▸ htarget)
    refine .inr ⟨fun h0 => absurd h0 hc, ?_⟩
    rcases ih with ⟨rfl, hle, rfl⟩ | ⟨hk, hdone⟩
    · -- straight code has no jumps, so control was right behind it
      have hge := length_le_of_isTerminator hb hpre hm (Pseudo.isTerminator_of_target? htarget)
      obtain rfl := Nat.le_antisymm hle hge
      exact hstart.concat fun _ => hle
    · exact hdone.concat hk
  | @fall done b block _ hblock ih =>
    refine .inr ⟨fun h0 => absurd h0 (Nat.succ_ne_zero b), ?_⟩
    rcases ih with ⟨rfl, hle, rfl⟩ | ⟨hk, hdone⟩
    · rw [hb] at hblock
      cases hblock
      have hlen : (pre ++ rest).length = pre.length := by
        rw [List.length_append] at hle ⊢
        omega
      rwa [hlen]
    · exact hdone

/-- So it is on every way that has come past it. -/
theorem Routine.Walk.entered_once (hm : opAt? f b k = some m) (hend : m.isTerminator = true) :
    Entered pre.length done := by
  rcases h.enter hb hpre hback with ⟨rfl, hle, rfl⟩ | ⟨-, hdone⟩
  · obtain rfl := Nat.le_antisymm hle (length_le_of_isTerminator hb hpre hm hend)
    exact .start _
  · exact hdone

end

theorem Routine.run_entryPlaces (hb : f.blocks[0]? = some (pre ++ rest)) : f.run (entryPlaces pre.length) = pre := by
  have htake (n : Nat) (hn : n ≤ pre.length) : f.run (entryPlaces n) = pre.take n := by
    induction n with
    | zero => rfl
    | succ n ih =>
      have hop : opAt? f 0 n = some pre[n] := by
        rw [opAt?, hb, Option.bind_some, List.getElem?_append_left hn, List.getElem?_eq_getElem hn]
      rw [entryPlaces, List.range_succ, List.map_append, Routine.run_append, ← entryPlaces, ih (by omega),
        List.take_add_one, List.getElem?_eq_getElem hn]
      simp [Routine.run, hop]
  rw [htake _ (Nat.le_refl _), List.take_length]

theorem count_entryPlaces {i n : Nat} (h : i < n) : (entryPlaces n).count (0, i) = 1 := by
  induction n with
  | zero => omega
  | succ n ih =>
    rw [entryPlaces, List.range_succ, List.map_append, List.count_append, ← entryPlaces]
    rcases Nat.lt_or_eq_of_le (Nat.le_of_lt_succ h) with hlt | rfl
    · have hlast : (0, i) ∉ [(0, n)] := by simpa using Nat.ne_of_lt hlt
      rw [ih hlt, List.map_singleton, List.count_eq_zero.mpr hlast]
    · have hearlier : (0, i) ∉ entryPlaces i := by simp [entryPlaces]
      rw [List.count_eq_zero.mpr hearlier, List.map_singleton, List.count_singleton_self]

structure Piece where
  op : Pseudo
  before : List Pseudo := []
  inst : Pseudo
  after : List Pseudo := []

namespace Piece

def code (p : Piece) : List Pseudo := p.before ++ p.inst :: p.after

structure Transparent (p : Piece) : Prop where
  passes : p.inst.passes = p.op.passes
  target : p.inst.target? = p.op.target?
  before : ∀ m ∈ p.before, m.isTerminator = false
  after : ∀ m ∈ p.after, m.isTerminator = false
  last : p.op.isTerminator = true → p.after = []

variable {p : Piece}

theorem code_length_pos (p : Piece) : 0 < p.code.length := by
  rw [code, List.length_append, List.length_cons]
  omega

theorem getElem?_code_inst (p : Piece) : p.code[p.before.length]? = some p.inst := by
  simp [code]

variable {j : Nat} {m : Pseudo}

/-- Only the operation in the midst of a piece ends a block. -/
theorem Transparent.isTerminator_code (h : p.Transparent) (hj : p.code[j]? = some m)
    (hm : m.isTerminator = true) : j = p.before.length ∧ m = p.inst := by
  rw [code] at hj
  rcases Nat.lt_trichotomy j p.before.length with hlt | rfl | hgt
  · rw [List.getElem?_append_left hlt] at hj
    rw [h.before m (List.mem_of_getElem? hj)] at hm
    cases hm
  · rw [List.getElem?_append_right (Nat.le_refl _), Nat.sub_self, List.getElem?_cons_zero] at hj
    exact ⟨rfl, (Option.some.inj hj).symm⟩
  · rw [List.getElem?_append_right (Nat.le_of_lt hgt),
      show j - p.before.length = (j - p.before.length - 1) + 1 by omega, List.getElem?_cons_succ] at hj
    rw [h.after m (List.mem_of_getElem? hj)] at hm
    cases hm

/-- The operations of a piece before the last let control pass, and the last does if the old
operation did. -/
theorem Transparent.passes_code (h : p.Transparent) (hj : p.code[j]? = some m)
    (hop : p.before.length ≤ j → p.op.passes = true) : m.passes = true := by
  cases ht : m.isTerminator with
  | false => exact Pseudo.passes_of_not_isTerminator ht
  | true =>
    obtain ⟨rfl, rfl⟩ := h.isTerminator_code hj ht
    rw [h.passes, hop (Nat.le_refl _)]

/-- If control passes the last operation of a piece, it passed the old operation. -/
theorem Transparent.passes_op (h : p.Transparent) (hj : p.code[j]? = some m)
    (hlast : j + 1 = p.code.length) (hm : m.passes = true) : p.op.passes = true := by
  cases ht : p.op.isTerminator with
  | false => exact Pseudo.passes_of_not_isTerminator ht
  | true =>
    have hj' : j = p.before.length := by
      rw [code, h.last ht, List.length_append, List.length_singleton] at hlast
      omega
    rw [hj', getElem?_code_inst] at hj
    cases hj
    rw [← h.passes, hm]

end Piece

abbrev Weave := List (List Piece)

namespace Weave

def piece? (w : Weave) (b k : Nat) : Option Piece := (w[b]?).bind (·[k]?)

def start (w : Weave) (b k : Nat) : Nat := (((w.getD b []).take k).flatMap Piece.code).length

def trail (w : Weave) (at' : Nat × Nat) : List (Nat × Nat) :=
  (List.range ((w.piece? at'.1 at'.2).elim 0 fun p => p.code.length)).map fun j =>
    (at'.1, w.start at'.1 at'.2 + j)

def pieces (w : Weave) (done : List (Nat × Nat)) : List Piece :=
  done.filterMap fun at' => w.piece? at'.1 at'.2

/-- A function is woven from another with the pieces of `w`. -/
structure Joins (w : Weave) (f g : Routine) : Prop where
  source : f.blocks = w.map fun row => row.map Piece.op
  result : g.blocks = w.map fun row => row.flatMap Piece.code
  transparent : ∀ row ∈ w, ∀ p ∈ row, p.Transparent

variable {w : Weave} {f g : Routine} {b k : Nat} {p : Piece}

theorem piece?_some (h : w.piece? b k = some p) : ∃ row, w[b]? = some row ∧ row[k]? = some p := by
  simpa [piece?, Option.bind_eq_some_iff] using h

theorem start_zero (w : Weave) (b : Nat) : w.start b 0 = 0 := by simp [start]

theorem start_succ (h : w.piece? b k = some p) : w.start b (k + 1) = w.start b k + p.code.length := by
  obtain ⟨row, hb, hk⟩ := piece?_some h
  simp [start, List.getD_eq_getElem?_getD, hb, List.take_add_one, hk]

theorem start_mono (w : Weave) (b : Nat) {k l : Nat} (h : k ≤ l) : w.start b k ≤ w.start b l := by
  obtain ⟨d, rfl⟩ := Nat.exists_eq_add_of_le h
  rw [start, start, List.take_add, List.flatMap_append, List.length_append]
  exact Nat.le_add_right _ _

theorem trail_eq (h : w.piece? b k = some p) :
    w.trail (b, k) = (List.range p.code.length).map fun j => (b, w.start b k + j) := by
  simp [trail, h]

theorem trail_length (h : w.piece? b k = some p) : (w.trail (b, k)).length = p.code.length := by
  simp [trail_eq h]

theorem trail_take_succ (h : w.piece? b k = some p) {j : Nat} (hj : j < p.code.length) :
    (w.trail (b, k)).take (j + 1) = (w.trail (b, k)).take j ++ [(b, w.start b k + j)] := by
  rw [List.take_add_one, trail_eq h, List.getElem?_map, List.getElem?_range hj]
  rfl

theorem trail_take_length (h : w.piece? b k = some p) : (w.trail (b, k)).take p.code.length = w.trail (b, k) :=
  List.take_of_length_le (Nat.le_of_eq (trail_length h))

namespace Joins

variable (hw : w.Joins f g) {j : Nat}
include hw

theorem opAt?_source (b k : Nat) : opAt? f b k = (w.piece? b k).map Piece.op := by
  cases hb : w[b]? <;> simp [opAt?, piece?, hw.source, hb]

theorem opAt?_result (hp : w.piece? b k = some p) (hj : j < p.code.length) :
    opAt? g b (w.start b k + j) = p.code[j]? := by
  obtain ⟨row, hb, hk⟩ := piece?_some hp
  obtain ⟨hlt, rfl⟩ := List.getElem?_eq_some_iff.mp hk
  have hsplit : row.flatMap Piece.code =
      (row.take k).flatMap Piece.code ++ (row[k].code ++ (row.drop (k + 1)).flatMap Piece.code) := by
    conv => lhs; rw [← List.take_append_drop k row, List.drop_eq_getElem_cons hlt]
    rw [List.flatMap_append, List.flatMap_cons]
  simp only [opAt?, hw.result, List.getElem?_map, hb, Option.map_some, Option.bind_some, hsplit, start,
    List.getD_eq_getElem?_getD, Option.getD_some]
  rw [List.getElem?_append_right (Nat.le_add_right _ _), Nat.add_sub_cancel_left, List.getElem?_append_left hj]

/-- An operation of the result that is not within a piece behind operations of it starts a piece. -/
theorem piece?_of_opAt? {m : Pseudo} (hm : opAt? g b (w.start b k + j) = some m)
    (hj : j = 0 ∨ ∃ p, w.piece? b k = some p ∧ j < p.code.length) : ∃ p, w.piece? b k = some p ∧ j < p.code.length := by
  refine hj.elim (fun hzero => ?_) id
  subst hzero
  obtain ⟨block, hb, hk⟩ := opAt?_some hm
  rw [hw.result, List.getElem?_map, Option.map_eq_some_iff] at hb
  obtain ⟨row, hrow, rfl⟩ := hb
  by_cases hlt : k < row.length
  · exact ⟨row[k], by simp [piece?, hrow, hlt], Piece.code_length_pos _⟩
  · have hlen := (List.getElem?_eq_some_iff.mp hk).1
    rw [start, List.getD_eq_getElem?_getD, hrow, Option.getD_some, List.take_of_length_le (by omega)] at hlen
    omega

theorem start_add_lt (hp : w.piece? b k = some p) {row : List Piece} (hrow : w[b]? = some row)
    (hj : j < p.code.length) : w.start b k + j < (row.flatMap Piece.code).length := by
  have hm := hw.opAt?_result hp hj
  rw [opAt?, hw.result, List.getElem?_map, hrow, List.getElem?_eq_getElem hj] at hm
  exact (List.getElem?_eq_some_iff.mp hm).1

theorem transparent_of (hp : w.piece? b k = some p) : p.Transparent := by
  obtain ⟨row, hb, hk⟩ := piece?_some hp
  exact hw.transparent row (List.mem_of_getElem? hb) p (List.mem_of_getElem? hk)

theorem run_source (done : List (Nat × Nat)) : f.run done = (w.pieces done).map Piece.op := by
  rw [Routine.run, pieces, List.map_filterMap]
  simp only [hw.opAt?_source]

theorem run_trail_take (hp : w.piece? b k = some p) (hj : j ≤ p.code.length) :
    g.run ((w.trail (b, k)).take j) = p.code.take j := by
  induction j with
  | zero => simp [Routine.run]
  | succ j ih =>
    rw [trail_take_succ hp hj, List.take_add_one, Routine.run_append, ih (by omega)]
    simp [Routine.run, hw.opAt?_result hp hj, List.getElem?_eq_getElem hj]

theorem run_trail (done : List (Nat × Nat)) : g.run (done.flatMap w.trail) = (w.pieces done).flatMap Piece.code := by
  induction done with
  | nil => rfl
  | cons at' rest ih =>
    obtain ⟨b, k⟩ := at'
    rw [List.flatMap_cons, Routine.run_append, ih]
    cases hp : w.piece? b k with
    | none => simp [pieces, trail, hp, Routine.run]
    | some p =>
      have hall := hw.run_trail_take hp (Nat.le_refl _)
      rw [trail_take_length hp, List.take_length] at hall
      have hcons : w.pieces ((b, k) :: rest) = p :: w.pieces rest := List.filterMap_cons_some hp
      rw [hall, hcons, List.flatMap_cons]

end Joins

end Weave

namespace Routine.Walk

open Weave

variable {w : Weave} {f g : Routine} {done : List (Nat × Nat)} {b k : Nat} {p : Piece} {j : Nat}
  {done' : List (Nat × Nat)}

/-- Control runs through a piece of the result as far as its operations let it pass. -/
theorem through (hw : w.Joins f g) (hp : w.piece? b k = some p) (h : g.Walk done b (w.start b k))
    (hj : j ≤ p.code.length) (hop : p.before.length < j → p.op.passes = true) :
    g.Walk (done ++ (w.trail (b, k)).take j) b (w.start b k + j) := by
  induction j with
  | zero => simpa using h
  | succ j ih =>
    have hm : opAt? g b (w.start b k + j) = some p.code[j] := by
      rw [hw.opAt?_result hp hj, List.getElem?_eq_getElem hj]
    have hpass := (hw.transparent_of hp).passes_code (List.getElem?_eq_getElem hj) fun hle => hop (by omega)
    have hnext := (ih (by omega) fun hlt => hop (by omega)).pass hm hpass
    rwa [List.append_assoc, ← trail_take_succ hp hj] at hnext

/-- Every way through the source is one through the result, along the code of the pieces. -/
theorem weave (hw : w.Joins f g) (h : f.Walk done b k) : g.Walk (done.flatMap w.trail) b (w.start b k) := by
  induction h with
  | entry => exact start_zero w 0 ▸ entry
  | @pass done b k m _ hm hpass ih =>
    rw [hw.opAt?_source, Option.map_eq_some_iff] at hm
    obtain ⟨p, hp, rfl⟩ := hm
    have h := through hw hp ih (Nat.le_refl _) fun _ => hpass
    rw [trail_take_length hp] at h
    rwa [List.flatMap_append, List.flatMap_singleton, start_succ hp]
  | @jump done b k c m _ hm htarget ih =>
    rw [hw.opAt?_source, Option.map_eq_some_iff] at hm
    obtain ⟨p, hp, rfl⟩ := hm
    have ht := hw.transparent_of hp
    have hlen : p.code.length = p.before.length + 1 := by
      simp [Piece.code, ht.last (Pseudo.isTerminator_of_target? htarget)]
    have h := through hw hp ih (j := p.before.length) (by omega) fun hlt => absurd hlt (Nat.lt_irrefl _)
    have hm : opAt? g b (w.start b k + p.before.length) = some p.inst := by
      rw [hw.opAt?_result hp (by omega), p.getElem?_code_inst]
    have hnext := h.jump hm (ht.target.trans htarget)
    rwa [List.append_assoc, ← trail_take_succ hp (by omega), ← hlen, trail_take_length hp,
      ← List.flatMap_singleton w.trail, ← List.flatMap_append, ← start_zero w c] at hnext
  | @fall done b block _ hb ih =>
    rw [hw.source, List.getElem?_map, Option.map_eq_some_iff] at hb
    obtain ⟨row, hrow, rfl⟩ := hb
    have hb' : g.blocks[b]? = some (row.flatMap Piece.code) := by rw [hw.result, List.getElem?_map, hrow]; rfl
    rw [start_zero]
    refine fall ?_ hb'
    simpa [start, List.getD_eq_getElem?_getD, hrow] using ih

/-- Every way through the result comes of one through the source, and has gone through the
first `j` operations of a piece. -/
theorem unweave (hw : w.Joins f g) {k' : Nat} (h : g.Walk done' b k') :
    ∃ done k j, f.Walk done b k ∧ k' = w.start b k + j ∧ done' = done.flatMap w.trail ++ (w.trail (b, k)).take j ∧
      (j = 0 ∨ ∃ p, w.piece? b k = some p ∧ j < p.code.length) := by
  induction h with
  | entry => exact ⟨[], 0, 0, entry, (start_zero w 0).symm, by simp, .inl rfl⟩
  | @pass done' b k' m _ hm hpass ih =>
    obtain ⟨done, k, j, hwalk, rfl, rfl, hj⟩ := ih
    obtain ⟨p, hp, hlt⟩ := hw.piece?_of_opAt? hm hj
    rw [hw.opAt?_result hp hlt] at hm
    rw [List.append_assoc, ← trail_take_succ hp hlt]
    rcases Nat.lt_or_ge (j + 1) p.code.length with hnext | hlast
    · exact ⟨done, k, j + 1, hwalk, by omega, rfl, .inr ⟨p, hp, hnext⟩⟩
    · have hlen : j + 1 = p.code.length := by omega
      have hop := (hw.transparent_of hp).passes_op hm hlen hpass
      refine ⟨done ++ [(b, k)], k + 1, 0, hwalk.pass (by rw [hw.opAt?_source, hp]; rfl) hop, ?_, ?_, .inl rfl⟩
      · rw [start_succ hp]
        omega
      · rw [hlen, trail_take_length hp, List.flatMap_append, List.flatMap_singleton, List.take_zero, List.append_nil]
  | @jump done' b k' c m _ hm htarget ih =>
    obtain ⟨done, k, j, hwalk, rfl, rfl, hj⟩ := ih
    obtain ⟨p, hp, hlt⟩ := hw.piece?_of_opAt? hm hj
    rw [hw.opAt?_result hp hlt] at hm
    have ht := hw.transparent_of hp
    obtain ⟨rfl, rfl⟩ := ht.isTerminator_code hm (Pseudo.isTerminator_of_target? htarget)
    rw [ht.target] at htarget
    have hlen : p.before.length + 1 = p.code.length := by
      simp [Piece.code, ht.last (Pseudo.isTerminator_of_target? htarget)]
    refine ⟨done ++ [(b, k)], 0, 0, hwalk.jump (by rw [hw.opAt?_source, hp]; rfl) htarget, (start_zero w c).symm, ?_,
      .inl rfl⟩
    rw [List.append_assoc, ← trail_take_succ hp hlt, hlen, trail_take_length hp, List.flatMap_append,
      List.flatMap_singleton, List.take_zero, List.append_nil]
  | @fall done' b block _ hb ih =>
    obtain ⟨done, k, j, hwalk, hk, rfl, hj⟩ := ih
    have hb' := hb
    rw [hw.result, List.getElem?_map, Option.map_eq_some_iff] at hb'
    obtain ⟨row, hrow, rfl⟩ := hb'
    -- within a piece the block would have operations left, so control is behind the last one
    obtain rfl : j = 0 := by
      rcases hj with hj | ⟨p, hp, hlt⟩
      · exact hj
      · have := hw.start_add_lt hp hrow hlt
        omega
    have hsource : f.blocks[b]? = some (row.map Piece.op) := by rw [hw.source, List.getElem?_map, hrow]; rfl
    have hle := hwalk.index_le hsource
    rw [List.length_map] at hle
    obtain rfl : k = row.length := by
      rcases Nat.lt_or_ge k row.length with hlt | hge
      · have hp : w.piece? b k = some row[k] := by simp [piece?, hrow, hlt]
        have := hw.start_add_lt hp hrow row[k].code_length_pos
        omega
      · omega
    rw [← List.length_map Piece.op] at hwalk
    exact ⟨done, 0, 0, hwalk.fall hsource, (start_zero w (b + 1)).symm, by simp, .inl rfl⟩

/-- A place within a piece is come to by ways that come to its operation in the source. -/
theorem unweave_at (hw : w.Joins f g) (hp : w.piece? b k = some p) (hj : j < p.code.length)
    (h : g.Walk done' b (w.start b k + j)) :
    ∃ done, f.Walk done b k ∧ done' = done.flatMap w.trail ++ (w.trail (b, k)).take j := by
  obtain ⟨done, l, i, hwalk, hplace, hdone, hi⟩ := unweave hw h
  have hm : opAt? g b (w.start b l + i) = some p.code[j] := by
    rw [← hplace, hw.opAt?_result hp hj, List.getElem?_eq_getElem hj]
  obtain ⟨q, hq, hlt⟩ := hw.piece?_of_opAt? hm hi
  have hk := start_succ hp
  have hl := start_succ hq
  obtain rfl : l = k := by
    rcases Nat.lt_trichotomy l k with hlk | hlk | hlk
    · have : w.start b (l + 1) ≤ w.start b k := w.start_mono b hlk
      omega
    · exact hlk
    · have : w.start b (k + 1) ≤ w.start b l := w.start_mono b hlk
      omega
  obtain rfl : i = j := by omega
  exact ⟨done, hwalk, hdone⟩

end Routine.Walk

end DirectPage
