import DirectPage.Proofs.CodeSection
import DirectPage.Proofs.PatchedField

/-! Sections that grow in place, call by call. A call is refused before anything is appended, so that the symbols of a
section are at all times an exact map of its code. Only a position or an addend that leaves its 64 bits ends a call
halfway, and with it all of them. -/
namespace DirectPage

/-- A function at `base` leaves the offset of the field and the addend of its relocation numbers of 64 bits. -/
def Fixup.Fits (base : Nat) (x : Fixup) : Prop := x.offset + base < 2 ^ 64 ∧ x.AddendFits

instance (base : Nat) (x : Fixup) : Decidable (x.Fits base) := inferInstanceAs (Decidable (_ ∧ _))

namespace Object

open DirectPage.Stream (alignUp_four)

/-- The section is what is changed, and what has been appended stays when a step fails. -/
abbrev Growing := EStateM Failure Object Unit

def appendRelocations (base : Nat) : List Fixup → Growing
  | [] => pure ()
  | x :: fixups => do
    match x.relocationAt base with
    | .ok r => modify fun o => { o with relocations := o.relocations ++ [r] }
    | .error e => throw e
    appendRelocations base fixups

def append (f : EncodedFunction) : Growing := do
  if ((← get).symbol? f.name).isSome then throw (.error (.invalidInput (.duplicateSymbol f.name)))
  else
    modify fun o => { o with code := o.code ++ padding o.code.length }
    let base := (← get).code.length
    modify fun o => { o with code := o.code ++ f.code }
    modify fun o => { o with symbols := o.symbols ++ [⟨f.name, base, f.code.length⟩] }
    appendRelocations base f.fixups

/-- What a sequence of calls leaves. After a call that is refused the next one is made. -/
def afterCalls : List EncodedFunction → Object → Checked Object
  | [], o => return o
  | f :: fs, o =>
    match append f o with
    | .ok _ o' | .error (.error _) o' => afterCalls fs o'
    | .error .abort _ => abort

def outcome {σ : Type} : EStateM.Result Failure σ Unit → Checked σ
  | .ok _ after => .ok after
  | .error e _ => .error e

def accepted : List String → List EncodedFunction → List EncodedFunction
  | _, [] => []
  | seen, f :: fs => if f.name ∈ seen then accepted seen fs else f :: accepted (seen ++ [f.name]) fs

/-- A relocation of a fixup, moved with the function around it to an offset. -/
def Relocates (x : Nat × Fixup) (r : Relocation) : Prop :=
  ∃ r', x.2.toRelocation = .ok r' ∧ r = { r' with offset := r'.offset + x.1 }

/-- The fields of functions that hold symbols, each with where its function is. -/
def placedFixups (symbols : List Symbol) (es : List EncodedFunction) : List (Nat × Fixup) :=
  (symbols.zip es).flatMap fun p => p.2.fixups.map fun x => (p.1.offset, x)

/-- The symbols of a section are a map of the code of functions. -/
structure Maps (o : Object) (es : List EncodedFunction) : Prop where
  names : o.symbols.map Symbol.name = es.map EncodedFunction.name
  nodup : (o.symbols.map Symbol.name).Nodup
  /-- Code stands on word boundaries at the offset of its symbol, and what is outside are no-operations. -/
  holds : Holds 0 o.symbols (es.map EncodedFunction.code) o.code
  apart : o.symbols.Pairwise fun a b => a.offset + a.size ≤ b.offset
  inside : ∀ sym ∈ o.symbols, sym.offset + sym.size ≤ o.code.length
  /-- No gap has room for a word. -/
  first : ∀ sym, o.symbols.head? = some sym → sym.offset = 0
  next : ∀ (i : Nat) sym sym', o.symbols[i]? = some sym → o.symbols[i + 1]? = some sym' →
    sym'.offset < sym.offset + sym.size + 4
  last : o.code.length = (o.symbols.getLast?.map fun sym => sym.offset + sym.size).getD 0
  relocations : List.Forall₂ Relocates (placedFixups o.symbols es) o.relocations

def extended (o : Object) (f : EncodedFunction) (rs : List Relocation) : Object where
  code := o.code ++ padding o.code.length ++ f.code
  symbols := o.symbols ++ [⟨f.name, alignUp o.code.length 4, f.code.length⟩]
  relocations := o.relocations ++ rs

def symbolsOf (stop : Nat) (es : List EncodedFunction) : List Symbol :=
  symbolsFrom stop (es.map fun e => (e.name, e.code.length))

theorem symbolsOf_cons (stop : Nat) (e : EncodedFunction) (es : List EncodedFunction) :
    symbolsOf stop (e :: es) =
      ⟨e.name, alignUp stop 4, e.code.length⟩ :: symbolsOf (alignUp stop 4 + e.code.length) es := rfl

section Calls

variable {o : Object} {f : EncodedFunction} {fs : List EncodedFunction}

theorem symbol?_isSome {name : String} : (o.symbol? name).isSome = true ↔ name ∈ o.symbols.map Symbol.name := by
  rw [symbol?, List.find?_isSome, List.mem_map]
  simp only [beq_iff_eq]

/-- A relocation is made exactly if its numbers fit. -/
theorem relocationAt_ok {x : Fixup} {base : Nat} (hend : x.offset ≤ x.instrEnd) (h : x.Fits base) :
    ∃ r, x.relocationAt base = .ok r ∧ Relocates (base, x) r := by
  have hoffset : unsigned64 (x.offset + base) = .ok (x.offset + base) := if_pos h.1
  have hr := x.toRelocation_eq hend
  rw [if_pos h.2] at hr
  refine ⟨_, ?_, _, hr, rfl⟩
  rw [Fixup.relocationAt, hr, ok_bind, hoffset]
  rfl

/-- A position past 64 bits stops the call. -/
theorem relocationAt_abort {x : Fixup} {base : Nat} (hend : x.offset ≤ x.instrEnd) (h : ¬x.Fits base) :
    x.relocationAt base = abort := by
  rw [Fixup.relocationAt, x.toRelocation_eq hend]
  split
  · next haddend =>
    have hoffset : unsigned64 (x.offset + base) = abort := if_neg fun hoffset => h ⟨hoffset, haddend⟩
    rw [ok_bind, hoffset]
    rfl
  · rfl

/-- Relocations are appended up to the first that does not fit. -/
theorem appendRelocations_eq (base : Nat) {fixups : List Fixup} (hend : ∀ x ∈ fixups, x.offset ≤ x.instrEnd)
    (o : Object) :
    (∀ x ∈ fixups, x.Fits base) ∧ (∃ rs, fixups.mapM (·.relocationAt base) = .ok rs ∧
      List.Forall₂ Relocates (fixups.map fun x => (base, x)) rs ∧
      appendRelocations base fixups o = .ok () { o with relocations := o.relocations ++ rs }) ∨
    (∃ x ∈ fixups, ¬x.Fits base) ∧ fixups.mapM (·.relocationAt base) = abort ∧
      ∃ o', appendRelocations base fixups o = .error .abort o' := by
  induction fixups generalizing o with
  | nil => exact .inl ⟨by simp, [], rfl, .nil, by simp [appendRelocations, pure, EStateM.pure]⟩
  | cons x fixups ih =>
    rw [List.mapM_cons]
    by_cases hx : x.Fits base
    · obtain ⟨r, hr, hreloc⟩ := relocationAt_ok (hend x List.mem_cons_self) hx
      rw [hr, ok_bind]
      rcases ih (fun y hy => hend y (List.mem_cons_of_mem _ hy)) { o with relocations := o.relocations ++ [r] } with
        ⟨hfits, rs, hrs, hall, happend⟩ | ⟨⟨y, hy, hnot⟩, hrs, o', happend⟩
      · refine .inl ⟨List.forall_mem_cons.mpr ⟨hx, hfits⟩, r :: rs, by rw [hrs]; rfl, .cons hreloc hall, ?_⟩
        rw [appendRelocations, hr]
        refine happend.trans ?_
        simp
      · refine .inr ⟨⟨y, List.mem_cons_of_mem _ hy, hnot⟩, by rw [hrs]; rfl, o', ?_⟩
        rw [appendRelocations, hr]
        exact happend
    · have hr := relocationAt_abort (hend x List.mem_cons_self) hx
      refine .inr ⟨⟨x, List.mem_cons_self, hx⟩, by rw [hr]; rfl, o, ?_⟩
      rw [appendRelocations, hr]
      rfl

/-- A name that is taken is refused, and nothing is appended. -/
theorem append_present (h : f.name ∈ o.symbols.map Symbol.name) :
    append f o = .error (.error (.invalidInput (.duplicateSymbol f.name))) o ∧
      outcome (append f o) = o.push f := by
  have happend : append f o = .error (.error (.invalidInput (.duplicateSymbol f.name))) o := by
    change (if (o.symbol? f.name).isSome = true then _ else _ : Growing) o = _
    rw [if_pos (symbol?_isSome.mpr h)]
    rfl
  refine ⟨happend, ?_⟩
  rw [happend, push, if_pos (symbol?_isSome.mpr h)]
  rfl

/-- Any other function is appended, unless one of its references is past 64 bits. -/
theorem append_absent (hx : ∀ x ∈ f.fixups, x.offset ≤ x.instrEnd) (h : f.name ∉ o.symbols.map Symbol.name) :
    outcome (append f o) = o.push f ∧
      ((∀ x ∈ f.fixups, x.Fits (alignUp o.code.length 4)) ∧
        (∃ rs, List.Forall₂ Relocates (f.fixups.map fun x => (alignUp o.code.length 4, x)) rs ∧
          append f o = .ok () (o.extended f rs)) ∨
      (∃ x ∈ f.fixups, ¬x.Fits (alignUp o.code.length 4)) ∧ ∃ o', append f o = .error .abort o') := by
  have hnew : ¬(o.symbol? f.name).isSome = true := fun hsome => h (symbol?_isSome.mp hsome)
  have hstart : append f o = appendRelocations (o.code ++ padding o.code.length).length f.fixups
      ⟨o.code ++ padding o.code.length ++ f.code,
        o.symbols ++ [⟨f.name, (o.code ++ padding o.code.length).length, f.code.length⟩], o.relocations⟩ := by
    change (if (o.symbol? f.name).isSome = true then _ else _ : Growing) o = _
    rw [if_neg hnew]
    rfl
  rw [List.length_append, length_padding] at hstart
  rw [push, if_neg hnew]
  dsimp only
  rcases appendRelocations_eq (alignUp o.code.length 4) hx ⟨o.code ++ padding o.code.length ++ f.code,
      o.symbols ++ [⟨f.name, alignUp o.code.length 4, f.code.length⟩], o.relocations⟩ with
    ⟨hfits, rs, hrs, hall, happend⟩ | ⟨hnot, hrs, o', happend⟩
  · rw [happend] at hstart
    refine ⟨?_, .inl ⟨hfits, rs, hall, hstart⟩⟩
    rw [hstart, hrs]
    rfl
  · rw [happend] at hstart
    refine ⟨?_, .inr ⟨hnot, o', hstart⟩⟩
    rw [hstart, hrs]
    rfl

/-- Calls append the functions that they do not refuse, each on the next word boundary, and come to an end exactly if
all fields fit. -/
theorem afterCalls_spec (hfs : ∀ f ∈ fs, ∀ x ∈ f.fixups, x.offset ≤ x.instrEnd) (o : Object) :
    let es := accepted (o.symbols.map Symbol.name) fs
    let placed := placedFixups (symbolsOf o.code.length es) es
    (∀ p ∈ placed, p.2.Fits p.1) ∧ (∃ rs, List.Forall₂ Relocates placed rs ∧
      afterCalls fs o = .ok ⟨sectionFrom o.code (es.map EncodedFunction.code),
        o.symbols ++ symbolsOf o.code.length es, o.relocations ++ rs⟩) ∨
    (∃ p ∈ placed, ¬p.2.Fits p.1) ∧ afterCalls fs o = abort := by
  induction fs generalizing o with
  | nil =>
    refine .inl ⟨nofun, [], .nil, ?_⟩
    simp [accepted, symbolsOf, symbolsFrom, sectionFrom, afterCalls, pure, Except.pure]
  | cons f fs ih =>
    have hrest : ∀ g ∈ fs, ∀ x ∈ g.fixups, x.offset ≤ x.instrEnd := fun g hg => hfs g (List.mem_cons_of_mem _ hg)
    rw [afterCalls]
    by_cases h : f.name ∈ o.symbols.map Symbol.name
    · rw [(append_present h).1, accepted, if_pos h]
      exact ih hrest o
    · have hplaced (rest : List EncodedFunction) :
          placedFixups (symbolsOf o.code.length (f :: rest)) (f :: rest) =
            f.fixups.map (fun x => (alignUp o.code.length 4, x)) ++
              placedFixups (symbolsOf (alignUp o.code.length 4 + f.code.length) rest) rest := rfl
      rw [accepted, if_neg h]
      dsimp only
      rw [hplaced]
      rcases (append_absent (hfs f List.mem_cons_self) h).2 with ⟨hfits, rs, hrs, hok⟩ | ⟨⟨x, hx, hnot⟩, o', habort⟩
      · have hnext := ih hrest (o.extended f rs)
        dsimp only [extended] at hnext
        rw [List.map_append, length_step] at hnext
        rw [hok]
        rcases hnext with ⟨hall, rs', hrs', hafter⟩ | ⟨⟨p, hp, hnot⟩, hafter⟩
        · refine .inl ⟨fun p hp => ?_, rs ++ rs', List.rel_append hrs hrs', hafter.trans ?_⟩
          · rcases List.mem_append.mp hp with hp | hp
            · obtain ⟨x, hx, rfl⟩ := List.mem_map.mp hp
              exact hfits x hx
            · exact hall p hp
          · simp [symbolsOf_cons, sectionFrom_cons]
        · exact .inr ⟨⟨p, List.mem_append_right _ hp, hnot⟩, hafter⟩
      · rw [habort]
        exact .inr ⟨⟨_, List.mem_append_left _ (List.mem_map_of_mem hx), hnot⟩, rfl⟩

end Calls

section Section

variable {es : List EncodedFunction}

/-- Symbols follow each other within the section. -/
theorem symbolsOf_apart (bytes : List UInt8) (es : List EncodedFunction) :
    (symbolsOf bytes.length es).Pairwise (fun a b => a.offset + a.size ≤ b.offset) ∧
      ∀ sym ∈ symbolsOf bytes.length es, bytes.length ≤ sym.offset ∧
        sym.offset + sym.size ≤ (sectionFrom bytes (es.map EncodedFunction.code)).length := by
  induction es generalizing bytes with
  | nil => exact ⟨.nil, nofun⟩
  | cons e es ih =>
    obtain ⟨hapart, hinside⟩ := ih (bytes ++ padding bytes.length ++ e.code)
    obtain ⟨more, hmore⟩ := sectionFrom_extends (bytes ++ padding bytes.length ++ e.code) (es.map EncodedFunction.code)
    have hle : bytes.length ≤ alignUp bytes.length 4 := (alignUp_four _).1
    rw [length_step] at hapart hinside
    refine ⟨.cons (fun sym hsym => (hinside sym hsym).1) hapart, fun sym hsym => ?_⟩
    rw [List.map_cons, sectionFrom_cons]
    rcases List.mem_cons.mp hsym with rfl | hsym
    · refine ⟨hle, ?_⟩
      rw [hmore, List.length_append, length_step]
      exact Nat.le_add_right _ _
    · exact ⟨by have := (hinside sym hsym).1; omega, (hinside sym hsym).2⟩

theorem length_sectionFrom_last (bytes : List UInt8) (es : List EncodedFunction) :
    (sectionFrom bytes (es.map EncodedFunction.code)).length =
      ((symbolsOf bytes.length es).getLast?.map fun sym => sym.offset + sym.size).getD bytes.length := by
  induction es generalizing bytes with
  | nil => rfl
  | cons e es ih =>
    rw [List.map_cons, sectionFrom_cons, ih, length_step, symbolsOf_cons, List.getLast?_cons]
    cases (symbolsOf (alignUp bytes.length 4 + e.code.length) es).getLast? with
    | none => rfl
    | some sym => rfl

/-- A section that calls have built, from nothing. -/
theorem maps_sectionFrom (hnodup : (es.map EncodedFunction.name).Nodup) {rs : List Relocation}
    (hrs : List.Forall₂ Relocates (placedFixups (symbolsOf 0 es) es) rs) :
    Maps ⟨sectionFrom [] (es.map EncodedFunction.code), symbolsOf 0 es, rs⟩ es := by
  have hnames : (symbolsOf 0 es).map Symbol.name = es.map EncodedFunction.name := by
    have h := congrArg (List.map Prod.fst) (symbolsFrom_named 0 (es.map fun e => (e.name, e.code.length)))
    simpa [symbolsOf, Function.comp_def] using h
  have hholds : Holds 0 (symbolsOf 0 es) (es.map EncodedFunction.code)
    (sectionFrom [] (es.map EncodedFunction.code)) := by
    simpa [symbolsOf, Function.comp_def] using sectionFrom_holds [] (es.map fun e => (e.name, e.code))
  obtain ⟨hapart, hinside⟩ := symbolsOf_apart [] es
  constructor
  case names => exact hnames
  case nodup => exact hnames ▸ hnodup
  case holds => exact hholds
  case apart => exact hapart
  case inside => exact fun sym hsym => (hinside sym hsym).2
  case first =>
    intro sym hsym
    rw [List.head?_eq_getElem?] at hsym
    exact hholds.first sym hsym
  case next =>
    intro i sym sym' hsym hsym'
    rw [hholds.next i sym sym' hsym hsym']
    exact (alignUp_four _).2.1
  case last => exact length_sectionFrom_last [] es
  case relocations => exact hrs

end Section

section Names

/-- The calls that are taken have different names. -/
theorem accepted_nodup (seen : List String) (fs : List EncodedFunction) :
    ((accepted seen fs).map EncodedFunction.name).Nodup ∧ ∀ e ∈ accepted seen fs, e.name ∉ seen := by
  induction fs generalizing seen with
  | nil => exact ⟨List.nodup_nil, nofun⟩
  | cons f fs ih =>
    rw [accepted]
    split
    · exact ih seen
    · next h =>
      obtain ⟨hnodup, hnew⟩ := ih (seen ++ [f.name])
      refine ⟨List.nodup_cons.mpr ⟨fun hmem => ?_, hnodup⟩, fun e he => ?_⟩
      · obtain ⟨e, he, hname⟩ := List.mem_map.mp hmem
        exact hnew e he (by simp [hname])
      · rcases List.mem_cons.mp he with rfl | he
        · exact h
        · exact fun hseen => hnew e he (List.mem_append_left _ hseen)

end Names

/-- What any sequence of calls makes of an empty section. They come to an end exactly if the fields of the functions
whose names are new fit where the functions are put, and then leave a map of these functions. In whatever state the
section is, a call returns an error exactly if the name is there already, and leaves the section as it was; and it
aborts exactly if the name is new and some field does not fit. -/
theorem afterCalls_maps {fs : List EncodedFunction} (hfs : ∀ f ∈ fs, ∀ x ∈ f.fixups, x.offset ≤ x.instrEnd) :
    ((∃ o, afterCalls fs {} = .ok o) ↔
      ∀ p ∈ placedFixups (symbolsOf 0 (accepted [] fs)) (accepted [] fs), p.2.Fits p.1) ∧
    (∀ o, afterCalls fs {} = .ok o → o.Maps (accepted [] fs)) ∧
    ∀ f ∈ fs, ∀ o : Object, outcome (append f o) = o.push f ∧
      ((∃ e o', append f o = .error (.error e) o') ↔ f.name ∈ o.symbols.map Symbol.name) ∧
      (∀ e o', append f o = .error (.error e) o' → e = .invalidInput (.duplicateSymbol f.name) ∧ o' = o) ∧
      ((∃ o', append f o = .error .abort o') ↔
        f.name ∉ o.symbols.map Symbol.name ∧ ∃ x ∈ f.fixups, ¬x.Fits (alignUp o.code.length 4)) := by
  refine ⟨?_, ?_, fun f hf o => ?_⟩
  · rcases afterCalls_spec hfs {} with ⟨hfits, rs, -, hafter⟩ | ⟨⟨p, hp, hnot⟩, hafter⟩
    · exact ⟨fun _ => hfits, fun _ => ⟨_, hafter⟩⟩
    · refine ⟨fun ⟨o, ho⟩ => ?_, fun hfits => absurd (hfits p hp) hnot⟩
      cases hafter.symm.trans ho
  · intro o ho
    rcases afterCalls_spec hfs {} with ⟨-, rs, hrs, hafter⟩ | ⟨-, hafter⟩
    · cases hafter.symm.trans ho
      exact maps_sectionFrom (accepted_nodup [] fs).1 hrs
    · cases hafter.symm.trans ho
  · by_cases h : f.name ∈ o.symbols.map Symbol.name
    · obtain ⟨hfail, heq⟩ := append_present h
      refine ⟨heq, ⟨fun _ => h, fun _ => ⟨_, _, hfail⟩⟩, fun e o' he => ?_, fun ⟨o', ho'⟩ => ?_, fun ⟨hnew, _⟩ => ?_⟩
      · cases hfail.symm.trans he
        exact ⟨rfl, rfl⟩
      · cases hfail.symm.trans ho'
      · exact absurd h hnew
    · obtain ⟨heq, hcases⟩ := append_absent (hfs f hf) h
      have hnot (e : Error) (o' : Object) : append f o ≠ .error (.error e) o' := fun he => by
        rcases hcases with ⟨-, rs, -, hok⟩ | ⟨-, o'', habort⟩
        · cases hok.symm.trans he
        · cases habort.symm.trans he
      refine ⟨heq, ⟨fun ⟨e, o', he⟩ => absurd he (hnot e o'), fun hmem => absurd hmem h⟩,
        fun e o' he => absurd he (hnot e o'), fun ⟨o', ho'⟩ => ⟨h, ?_⟩, fun ⟨_, x, hx, hout⟩ => ?_⟩
      · rcases hcases with ⟨-, rs, -, hok⟩ | ⟨hfits, -⟩
        · cases hok.symm.trans ho'
        · exact hfits
      · rcases hcases with ⟨hfits, -⟩ | ⟨-, habort⟩
        · exact absurd (hfits x hx) hout
        · exact habort

def mixedCalls : List EncodedFunction :=
  [⟨"entry", [34, 0, 0, 0, 0, 96], [], [⟨1, .abs32, ⟨"table", 4#32⟩, 5⟩], 0⟩, ⟨"entry", [96], [], [], 0⟩,
    ⟨"table", [], [], [], 0⟩, ⟨"exit", [96], [], [⟨0, .pcRel8, ⟨"entry", 0#32⟩, 1⟩], 0⟩]

def mixedSection : Object :=
  ⟨[34, 0, 0, 0, 0, 96, 234, 234, 96], [⟨"entry", 0, 6⟩, ⟨"table", 8, 0⟩, ⟨"exit", 8, 1⟩],
    [⟨1, .r32, "table", 4⟩, ⟨8, .pcRel8, "entry", -1⟩]⟩

theorem afterCalls_maps_mixedCalls : (∀ f ∈ mixedCalls, ∀ x ∈ f.fixups, x.offset ≤ x.instrEnd) ∧
    afterCalls mixedCalls {} = .ok mixedSection ∧ mixedSection.Maps (accepted [] mixedCalls) := by
  have hfs : ∀ f ∈ mixedCalls, ∀ x ∈ f.fixups, x.offset ≤ x.instrEnd := by decide
  have hafter : afterCalls mixedCalls {} = .ok mixedSection := by decide +kernel
  exact ⟨hfs, hafter, (afterCalls_maps hfs).2.1 mixedSection hafter⟩

/-- A branch of which the instruction ends at the last position there is. -/
def endlessBranch : EncodedFunction := ⟨"f", [], [], [⟨0, .pcRel8, ⟨"t", -2#32⟩, 2 ^ 63 - 1⟩], 0⟩

/-- Its name is new, but the call aborts and leaves a symbol for it. -/
theorem endlessBranch_aborts : (∀ x ∈ endlessBranch.fixups, x.offset ≤ x.instrEnd) ∧
    append endlessBranch {} = .error .abort ⟨[], [⟨"f", 0, 0⟩], []⟩ ∧ afterCalls [endlessBranch] {} = abort := by
  refine ⟨by decide, rfl, rfl⟩

end Object

end DirectPage
