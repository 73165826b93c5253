import Mathlib.Data.List.Nodup
import Mathlib.Data.List.TakeWhile
import Mathlib.Tactic.IntervalCases
import DirectPage.Proofs.Checked
import DirectPage.Register.Name

/-! Register names are read exactly.

A text is read as a register if and only if it is one of its names, but for blanks around it and the case of letters.
The names are the one of listings, in which a number has its shortest decimal spelling, and three conventional ones. -/
namespace DirectPage

namespace Text

def Stripped (cs core : List Char) : Prop :=
  ∃ before after, cs = before ++ core ++ after ∧ (∀ c ∈ before ++ after, isBlank c = true) ∧
    (∀ c ∈ core.head?, isBlank c = false) ∧ ∀ c ∈ core.getLast?, isBlank c = false

def SameLetters (cs ds : List Char) : Prop := cs.map Char.toLower = ds.map Char.toLower

/-- A number in decimal digits, without a sign and without zeros in front. -/
structure Decimal (cs : List Char) (n : Nat) : Prop where
  digit : ∀ c ∈ cs, c.isDigit = true
  value : Nat.ofDigitChars 10 cs 0 = n
  nonempty : cs ≠ []
  shortest : cs.head? = some '0' → cs = ['0']

variable {cs ds core : List Char} {n limit : Nat}

/-- Blanks in front are dropped, and what follows them stays. -/
private theorem dropWhile_blanks {before : List Char} (hb : ∀ c ∈ before, isBlank c = true)
    (hc : ∀ c ∈ core.head?, isBlank c = false) : (before ++ core).dropWhile isBlank = core := by
  rw [List.dropWhile_append_of_pos hb]
  cases core with
  | nil => rfl
  | cons c rest => exact List.dropWhile_cons_of_neg (by simp [hc c (by simp)])

private theorem head_dropWhile_blanks (cs : List Char) :
    ∀ c ∈ (cs.dropWhile isBlank).head?, isBlank c = false := by
  intro c hc
  have h := List.head?_dropWhile_not isBlank cs
  rw [Option.mem_def.mp hc] at h
  simpa using h

theorem stripped_iff : Stripped cs core ↔ trimmed cs = core := by
  constructor
  · rintro ⟨before, after, rfl, hblank, hhead, hlast⟩
    have hbefore : ∀ c ∈ before, isBlank c = true := fun c hc => hblank c (List.mem_append_left _ hc)
    have hafter : ∀ c ∈ after, isBlank c = true := fun c hc => hblank c (List.mem_append_right _ hc)
    cases core with
    | nil =>
      have hnil : (before ++ after).dropWhile isBlank = [] := List.dropWhile_eq_nil_iff.mpr hblank
      simp [trimmed, hnil]
    | cons c rest =>
      have hfront : (before ++ (c :: rest) ++ after).dropWhile isBlank = c :: rest ++ after := by
        rw [List.append_assoc]
        exact dropWhile_blanks hbefore (by simpa using hhead)
      have hback : (after.reverse ++ (c :: rest).reverse).dropWhile isBlank = (c :: rest).reverse :=
        dropWhile_blanks (by simpa using hafter) (by simpa only [List.head?_reverse] using hlast)
      rw [trimmed, hfront, List.reverse_append, hback, List.reverse_reverse]
  · rintro rfl
    let rest := cs.dropWhile isBlank
    have hrest : trimmed cs ++ (rest.reverse.takeWhile isBlank).reverse = rest := by
      rw [trimmed, ← List.reverse_append, List.takeWhile_append_dropWhile, List.reverse_reverse]
    refine ⟨cs.takeWhile isBlank, (rest.reverse.takeWhile isBlank).reverse, ?_, ?_, ?_, ?_⟩
    · rw [List.append_assoc, hrest, List.takeWhile_append_dropWhile]
    · intro c hc
      rw [List.mem_append, List.mem_reverse] at hc
      rcases hc with hc | hc <;> exact List.mem_takeWhile_imp hc
    · intro c hc
      refine head_dropWhile_blanks cs c ?_
      rw [show cs.dropWhile isBlank = rest from rfl, ← hrest, List.head?_append, Option.mem_def.mp hc]
      rfl
    · rw [trimmed, List.getLast?_reverse]
      exact head_dropWhile_blanks _

private theorem toNat_toUpper (c : Char) :
    c.toUpper.toNat = if 97 ≤ c.toNat ∧ c.toNat ≤ 122 then c.toNat - 32 else c.toNat := by
  have hlower : (c.val ≥ 'a'.val ∧ c.val ≤ 'z'.val) ↔ 97 ≤ c.toNat ∧ c.toNat ≤ 122 := by
    simp only [ge_iff_le, UInt32.le_iff_toNat_le]
    rfl
  delta Char.toUpper
  split
  · next h =>
    have hc := hlower.mp h
    rw [if_pos hc]
    change (c.val + _).toNat = _
    rw [UInt32.toNat_add]
    change (c.toNat + 4294967264) % 4294967296 = c.toNat - 32
    omega
  · next h => rw [if_neg fun hc => h (hlower.mpr hc)]

private theorem toNat_toLower (c : Char) :
    c.toLower.toNat = if 65 ≤ c.toNat ∧ c.toNat ≤ 90 then c.toNat + 32 else c.toNat := by
  have hupper : (c.val ≥ 'A'.val ∧ c.val ≤ 'Z'.val) ↔ 65 ≤ c.toNat ∧ c.toNat ≤ 90 := by
    simp only [ge_iff_le, UInt32.le_iff_toNat_le]
    rfl
  delta Char.toLower
  split
  · next h =>
    have hc := hupper.mp h
    rw [if_pos hc]
    change (c.val + _).toNat = _
    rw [UInt32.toNat_add]
    change (c.toNat + 32) % 4294967296 = c.toNat + 32
    omega
  · next h => rw [if_neg fun hc => h (hupper.mpr hc)]

/-- The last change of case is the one that counts. -/
private theorem toUpper_toLower (c : Char) :
    c.toLower.toUpper = c.toUpper ∧ c.toUpper.toLower = c.toLower := by
  constructor <;> refine Char.toNat_inj.mp ?_ <;> grind [toNat_toUpper, toNat_toLower]

theorem sameLetters_iff : SameLetters cs ds ↔ upper cs = upper ds := by
  constructor
  · intro h
    have hu := congrArg (List.map Char.toUpper) h
    simpa [upper, Function.comp_def, toUpper_toLower] using hu
  · intro h
    have hl := congrArg (List.map Char.toLower) h
    simpa [SameLetters, upper, Function.comp_def, toUpper_toLower] using hl

section Digits

variable {c : Char}

private theorem toNat_of_isDigit (h : c.isDigit = true) : 48 ≤ c.toNat ∧ c.toNat ≤ 57 := by
  simp only [Char.isDigit, Bool.and_eq_true, decide_eq_true_eq] at h
  exact ⟨UInt32.le_iff_toNat_le.mp h.1, UInt32.le_iff_toNat_le.mp h.2⟩

private theorem value_lt (h : c.isDigit = true) : c.toNat - '0'.toNat < 10 := by
  have hc := toNat_of_isDigit h
  change c.toNat - 48 < 10
  omega

private theorem value_pos (h : c.isDigit = true) (hzero : c ≠ '0') : 0 < c.toNat - '0'.toNat := by
  have hc := toNat_of_isDigit h
  have hne : c.toNat ≠ 48 := fun he => hzero (Char.toNat_inj.mp he)
  change 0 < c.toNat - 48
  omega

/-- A digit spells its own value. -/
private theorem toDigits_value (h : c.isDigit = true) : Nat.toDigits 10 (c.toNat - '0'.toNat) = [c] := by
  rw [Nat.toDigits_of_lt_base (value_lt h)]
  refine congrArg (fun d => [d]) (Char.toNat_inj.mp ?_)
  rw [Nat.toNat_digitChar_of_lt_ten (value_lt h)]
  have hc := toNat_of_isDigit h
  change 48 + (c.toNat - 48) = c.toNat
  omega

private theorem digitIn?_of_isDigit (h : c.isDigit = true) : digitIn? 10 c = some (c.toNat - '0'.toNat) := by
  have hd : '0' ≤ c ∧ c ≤ '9' := by simpa [Char.isDigit, Char.le_def] using h
  simp only [digitIn?, digit?, if_pos hd, Option.bind_some, if_pos (value_lt h)]

private theorem foldl_digits (h : ∀ c ∈ cs, c.isDigit = true) (init : Nat) :
    cs.foldl (fun acc c => acc.bind fun n => (digitIn? 10 c).map fun d => n * 10 + d) (some init) =
      some (Nat.ofDigitChars 10 cs init) := by
  induction cs generalizing init with
  | nil => simp
  | cons c cs ih =>
    rw [List.foldl_cons, Option.bind_some, digitIn?_of_isDigit (h c List.mem_cons_self), Option.map_some,
      ih fun d hd => h d (List.mem_cons_of_mem _ hd), Nat.ofDigitChars_cons, Nat.mul_comm]

theorem digits?_of_isDigit (h : ∀ c ∈ cs, c.isDigit = true) :
    digits? 10 cs = some (Nat.ofDigitChars 10 cs 0) := foldl_digits h 0

/-- Digits behind those of a positive number are the digits of the number that both make up. -/
private theorem toDigits_append (h : ∀ c ∈ cs, c.isDigit = true) {init : Nat} (hi : 0 < init) :
    Nat.toDigits 10 init ++ cs = Nat.toDigits 10 (Nat.ofDigitChars 10 cs init) := by
  induction cs generalizing init with
  | nil => simp
  | cons c cs ih =>
    have hc := h c List.mem_cons_self
    have hone := Nat.toDigits_append_toDigits (by decide) hi (value_lt hc)
    rw [toDigits_value hc] at hone
    rw [Nat.ofDigitChars_cons, ← ih (fun d hd => h d (List.mem_cons_of_mem _ hd)) (by omega), ← hone,
      List.append_assoc, List.singleton_append]

/-- The first digit of a positive number is not zero. -/
private theorem head?_toDigits (hn : 0 < n) : (Nat.toDigits 10 n).head? ≠ some '0' := by
  induction n using Nat.strongRecOn with
  | ind n ih =>
    rcases Nat.lt_or_ge n 10 with h | h
    · rw [Nat.toDigits_of_lt_base h]
      interval_cases n <;> decide
    · rw [Nat.toDigits_of_base_le (by decide) h, List.head?_append]
      have hq := ih (n / 10) (by omega) (by omega)
      cases hd : (Nat.toDigits 10 (n / 10)).head? with
      | none => exact absurd (List.head?_eq_none_iff.mp hd) Nat.toDigits_ne_nil
      | some c => simpa [hd] using hq

end Digits

/-- A number has one decimal spelling, the one that it is written with. -/
theorem decimal_iff : Decimal cs n ↔ cs = (toString n).toList := by
  rw [Nat.toString_eq_ofList_toDigits, String.toList_ofList]
  constructor
  · intro h
    cases cs with
    | nil => exact absurd rfl h.nonempty
    | cons c rest =>
      have hc := h.digit c List.mem_cons_self
      by_cases hzero : c = '0'
      · subst hzero
        have hone := h.shortest rfl
        rw [← h.value, hone]
        rfl
      · have happend := toDigits_append (fun d hd => h.digit d (List.mem_cons_of_mem _ hd)) (value_pos hc hzero)
        rw [toDigits_value hc] at happend
        rw [← h.value, Nat.ofDigitChars_cons, Nat.mul_zero, Nat.zero_add, ← happend, List.singleton_append]
  · rintro rfl
    refine ⟨fun c hc => Nat.isDigit_of_mem_toDigits (by decide) (by decide) hc, Nat.ofDigitChars_ten_toDigits,
      Nat.toDigits_ne_nil, fun h => ?_⟩
    rcases Nat.eq_zero_or_pos n with rfl | hn
    · exact Nat.toDigits_zero 10
    · exact absurd h (head?_toDigits hn)

/-- Digits have no case. -/
theorem Decimal.upper (h : Decimal cs n) : upper cs = cs := by
  have hid : ∀ c ∈ cs, c.toUpper = id c := by
    intro c hc
    have hdigit := toNat_of_isDigit (h.digit c hc)
    refine Char.toNat_inj.mp ?_
    rw [toNat_toUpper, if_neg (by omega), id]
  exact (List.map_congr_left hid).trans (List.map_id cs)

/-- A decimal spelling is read as its number. -/
theorem unsigned?_of_decimal (h : Decimal cs n) (hn : n < limit) : unsigned? 10 limit cs = some n := by
  -- Reading passes over a sign, so there must be none.
  have hplus : ∀ rest, cs ≠ '+' :: rest := by
    rintro rest rfl
    exact absurd (h.digit '+' List.mem_cons_self) (by decide)
  simp [unsigned?, h.nonempty, digits?_of_isDigit h.digit, h.value, hn]

end Text

namespace Register

open Text

/-- The names of the registers that exist, in capitals: a bank with a number in decimal, a name of the processor, or a
conventional name of a general register. -/
inductive Named : List Char → Register → Prop
  | general {ds : List Char} {n : UInt8} : n < 64 → Decimal ds n.toNat → Named ('R' :: ds) (general n)
  | float {ds : List Char} {n : UInt8} : n < 16 → Decimal ds n.toNat → Named ('F' :: ds) (float n)
  | architectural {r : Register} {name : String} : (r, name) ∈ architectural → Named name.toList r
  | conventional {name : String} {r : Register} : (name, r) ∈ aliases → Named name.toList r

variable {cs name : List Char} {r : Register}

theorem shortNumber?_eq_some {limit : Nat} (hl : limit ≤ 256) {n : UInt8} :
    shortNumber? limit cs = some n ↔ n.toNat < limit ∧ Decimal cs n.toNat := by
  constructor
  · intro h
    obtain ⟨k, -, hk⟩ := Option.bind_eq_some_iff.mp h
    split at hk
    · next hc =>
      cases hk
      have hto : (UInt8.ofNat k).toNat = k := Nat.mod_eq_of_lt (by omega)
      rw [hto]
      exact ⟨hc.1, decimal_iff.mpr hc.2⟩
    · cases hk
  · rintro ⟨hn, hd⟩
    rw [shortNumber?, unsigned?_of_decimal hd n.toNat_lt, Option.bind_some, if_pos ⟨hn, decimal_iff.mp hd⟩,
      UInt8.ofNat_toNat]

/-- Names have no small letters. -/
theorem Named.upper (h : Named name r) : upper name = name := by
  have harchitectural : ∀ p ∈ Register.architectural, Text.upper p.2.toList = p.2.toList := by decide
  have hconventional : ∀ p ∈ aliases, Text.upper p.1.toList = p.1.toList := by decide
  cases h with
  | general hn hd => exact congrArg ('R' :: ·) hd.upper
  | float hn hd => exact congrArg ('F' :: ·) hd.upper
  | architectural h => exact harchitectural _ h
  | conventional h => exact hconventional _ h

/-- The entry of a table with distinct keys that has a given key. -/
private theorem find?_key {α : Type} {table : List α} {key : α → List Char} (hd : (table.map key).Nodup) {p : α} :
    (table.find? fun p => key p == cs) = some p ↔ p ∈ table ∧ key p = cs := by
  constructor
  · intro h
    exact ⟨List.mem_of_find?_eq_some h, by simpa using List.find?_some h⟩
  · rintro ⟨hp, rfl⟩
    cases hf : table.find? fun q => key q == key p with
    | none => simpa using List.find?_eq_none.mp hf p hp
    | some q =>
      have hq : key q = key p := by simpa using List.find?_some hf
      rw [List.inj_on_of_nodup_map hd (List.mem_of_find?_eq_some hf) hp hq]

/-- A bank letter with digits behind it is none of the other names. -/
private theorem numbered_not_fixed {letter : Char} (hl : letter = 'R' ∨ letter = 'F') {ds : List Char} {n : Nat}
    (hd : Decimal ds n) :
    (Register.architectural.find? fun p => p.2.toList == letter :: ds) = none ∧
      (aliases.find? fun p => p.1.toList == letter :: ds) = none := by
  have harchitectural : ∀ p ∈ Register.architectural, p.2.toList.head? ≠ some 'R' ∧ p.2.toList.head? ≠ some 'F' := by
    decide
  -- `FP` begins with the letter of a bank, but what follows it is no digit.
  have hconventional : ∀ p ∈ aliases, p.1.toList.tail.all Char.isDigit = false := by decide
  constructor
  · refine List.find?_eq_none.mpr fun p hp he => ?_
    have hhead := harchitectural p hp
    rw [beq_iff_eq.mp he] at hhead
    rcases hl with rfl | rfl
    · exact hhead.1 rfl
    · exact hhead.2 rfl
  · refine List.find?_eq_none.mpr fun p hp he => ?_
    have htail := hconventional p hp
    rw [beq_iff_eq.mp he, List.tail_cons, List.all_eq_true.mpr hd.digit] at htail
    cases htail

theorem ofUpper?_eq_some : ofUpper? cs = some r ↔ Named cs r := by
  have hfixed : ∀ p, (Register.architectural.find? fun p => p.2.toList == cs) = some p ↔
      p ∈ Register.architectural ∧ p.2.toList = cs := fun p => find?_key (by decide)
  have haliases : ∀ p, (aliases.find? fun p => p.1.toList == cs) = some p ↔ p ∈ aliases ∧ p.1.toList = cs :=
    fun p => find?_key (by decide)
  constructor
  · intro h
    unfold ofUpper? at h
    split at h
    · next hf =>
      cases h
      obtain ⟨hp, rfl⟩ := (hfixed _).mp hf
      exact .architectural hp
    · split at h
      · next hf =>
        cases h
        obtain ⟨hp, rfl⟩ := (haliases _).mp hf
        exact .conventional hp
      · split at h
        · obtain ⟨n, hn, rfl⟩ := Option.map_eq_some_iff.mp h
          obtain ⟨hlt, hd⟩ := (shortNumber?_eq_some (by decide)).mp hn
          exact .general (UInt8.lt_iff_toNat_lt.mpr hlt) hd
        · obtain ⟨n, hn, rfl⟩ := Option.map_eq_some_iff.mp h
          obtain ⟨hlt, hd⟩ := (shortNumber?_eq_some (by decide)).mp hn
          exact .float (UInt8.lt_iff_toNat_lt.mpr hlt) hd
        · cases h
  · intro h
    cases h with
    | general hn hd =>
      obtain ⟨ha, hc⟩ := numbered_not_fixed (.inl rfl) hd
      have hshort := (shortNumber?_eq_some (by decide)).mpr ⟨UInt8.lt_iff_toNat_lt.mp hn, hd⟩
      simp only [ofUpper?, ha, hc, Option.map_eq_some_iff]
      exact ⟨_, hshort, rfl⟩
    | float hn hd =>
      obtain ⟨ha, hc⟩ := numbered_not_fixed (.inr rfl) hd
      have hshort := (shortNumber?_eq_some (by decide)).mpr ⟨UInt8.lt_iff_toNat_lt.mp hn, hd⟩
      simp only [ofUpper?, ha, hc, Option.map_eq_some_iff]
      exact ⟨_, hshort, rfl⟩
    | architectural h => simp only [ofUpper?, (hfixed _).mpr ⟨h, rfl⟩]
    | @conventional name r h =>
      have hother : ∀ p ∈ aliases, ∀ q ∈ Register.architectural, q.2.toList ≠ p.1.toList := by decide
      have hnone : (Register.architectural.find? fun p => p.2.toList == name.toList) = none :=
        List.find?_eq_none.mpr fun q hq he => hother _ h q hq (beq_iff_eq.mp he)
      simp only [ofUpper?, hnone, (haliases _).mpr ⟨h, rfl⟩]

/-- The name of a register in listings is the only one, apart from the conventional names. -/
theorem named_iff : Named name r ↔
    r.isValid = true ∧ name = r.text.toList ∨ (String.ofList name, r) ∈ aliases := by
  constructor
  · intro h
    cases h with
    | general hn hd => exact .inl ⟨by simpa [isValid] using hn, by simp [text, decimal_iff.mp hd]⟩
    | float hn hd => exact .inl ⟨by simpa [isValid] using hn, by simp [text, decimal_iff.mp hd]⟩
    | @architectural _ name h =>
      have htable : ∀ p ∈ Register.architectural, p.1.isValid = true ∧ p.2 = p.1.text := by decide
      obtain ⟨hv, he⟩ := htable _ h
      exact .inl ⟨hv, congrArg String.toList he⟩
    | conventional h => exact .inr (by rwa [String.ofList_toList])
  · rintro (⟨hv, rfl⟩ | h)
    · have hprinted : ∀ n : Nat, Decimal (toString n).toList n := fun n => decimal_iff.mpr rfl
      cases r with
      | general n =>
        rw [show (Register.general n).text.toList = 'R' :: (toString n.toNat).toList by simp [text]]
        exact .general (by simpa [isValid] using hv) (hprinted _)
      | float n =>
        rw [show (Register.float n).text.toList = 'F' :: (toString n.toNat).toList by simp [text]]
        exact .float (by simpa [isValid] using hv) (hprinted _)
      | _ => exact .architectural (by decide)
    · simpa using Named.conventional h

/-- Register names are read exactly. A text is read as a register if and only if it is a name of it, but for blanks
around it and the case of letters. Any other text ends in an error with this text. The names are those of listings and
the conventional ones. -/
theorem parse_exact (s : String) :
    (∀ r, parse s = .ok r ↔
      ∃ core name, Stripped s.toList core ∧ SameLetters core name ∧ Named name r) ∧
    (parse s = fail (.unknownRegister s) ↔
      ¬ ∃ core name r, Stripped s.toList core ∧ SameLetters core name ∧ Named name r) ∧
    ∀ name r, Named name r ↔ r.isValid = true ∧ name = r.text.toList ∨
      (String.ofList name, r) ∈ [("GP", general 28), ("FP", general 29), ("LR", general 30)] := by
  have hok : ∀ r, parse s = .ok r ↔
      ∃ core name, Stripped s.toList core ∧ SameLetters core name ∧ Named name r := by
    intro r
    rw [parse, orFail_eq_ok, ofUpper?_eq_some]
    constructor
    · intro h
      exact ⟨_, _, stripped_iff.mpr rfl, sameLetters_iff.mpr h.upper.symm, h⟩
    · rintro ⟨core, name, hs, hl, h⟩
      rwa [stripped_iff.mp hs, sameLetters_iff.mp hl, h.upper]
  refine ⟨hok, ?_, fun _ _ => named_iff⟩
  constructor
  · rintro herror ⟨core, name, r, h⟩
    rw [(hok r).mpr ⟨core, name, h⟩] at herror
    cases herror
  · intro hnone
    cases hread : ofUpper? (upper (trimmed s.toList)) with
    | none => rw [parse, hread, orFail]
    | some r =>
      obtain ⟨core, name, h⟩ := (hok r).mp (by rw [parse, orFail_eq_ok, hread])
      exact absurd ⟨core, name, r, h⟩ hnone

end Register

end DirectPage
