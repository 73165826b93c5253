import DirectPage.Proofs.CodeSection
import DirectPage.Proofs.Pipeline

/-! Linking. A linked section holds the bytes of instructions whose symbols were replaced by addresses. -/
namespace DirectPage

/-- The address that a name stands for with the section at `base`. A function of the section comes before an
external of that name. -/
def Object.symbolAddress? (o : Object) (base : Word) (externals : List (String × Word)) (name : String) : Option Nat :=
  match o.symbols.find? (·.name == name) with
  | some sym => some (base.toNat + sym.offset)
  | none => (externals.lookup name).map BitVec.toNat

def Imm.linked (address? : String → Option Nat) : Imm → Imm
  | .symbol s =>
    match address? s.name with
    | some a => .value (BitVec.ofInt 32 (a + s.addend.toInt))
    | none => .symbol s
  | imm => imm

def Instruction.linked (address? : String → Option Nat) (i : Instruction) : Instruction :=
  i.mapOperand (Imm.linked address?)

/-! Patching instructions. -/

def Fixup.relocation (f : Fixup) : Relocation := ⟨f.offset, .r32, f.target.name, f.target.addend.toInt⟩

def patchAll (address? : String → Option Nat) (rs : List Relocation) (bytes : List UInt8) : List UInt8 :=
  rs.foldl (fun bytes r =>
    match address? r.symbol with
    | some a => patchBytes bytes r.offset (Word.bytes (BitVec.ofInt 32 (a + r.addend)))
    | none => bytes) bytes

section Instructions

variable {start : Nat} {i : Instruction} {is : List Instruction} {f : Fixup}

theorem fixupOf_eq_some (h : fixupOf start i = some f) : ∃ field target, i.operandOffset? = some field ∧
    i.operand? = some (.symbol target) ∧ f = ⟨start + field, .abs32, target, start + i.size⟩ := by
  unfold fixupOf at h
  split at h
  · next field target hf ho =>
    cases h
    exact ⟨field, target, hf, ho, rfl⟩
  · cases h

/-- Fields lie within the bytes of their instructions. -/
theorem mem_symbolFixups (h : f ∈ symbolFixups start is) :
    f.kind = .abs32 ∧ f.offset + 4 ≤ f.instrEnd ∧ f.instrEnd ≤ start + (encodeAll is).length := by
  induction is generalizing start with
  | nil => cases h
  | cons i is ih =>
    have hlen : (encodeAll (i :: is)).length = i.size + (encodeAll is).length := by
      rw [encodeAll, List.flatMap_cons, List.length_append, Instruction.encode_length]
      rfl
    rw [Stream.symbolFixups_cons, List.mem_append] at h
    rcases h with h | h
    · obtain ⟨field, target, hf, -, rfl⟩ := fixupOf_eq_some (Option.mem_toList.mp h)
      have hle := Instruction.operandOffset?_le hf
      exact ⟨rfl, by dsimp only; omega, by dsimp only; omega⟩
    · obtain ⟨hkind, hend, hstop⟩ := ih h
      exact ⟨hkind, hend, by omega⟩

theorem relocationAt_eq_ok (hkind : f.kind = .abs32) (hend : f.offset + 4 ≤ f.instrEnd) {k : Nat} {r : Relocation}
    (h : f.relocationAt k = .ok r) : r = { f.relocation with offset := f.offset + k } := by
  obtain ⟨r', hr', h⟩ := bind_eq_ok.mp h
  obtain ⟨offset, hoffset, h⟩ := bind_eq_ok.mp h
  rw [Fixup.toRelocation, if_neg (by omega), hkind] at hr'
  obtain ⟨addend, haddend, hr'⟩ := (bind_eq_ok (x := signed64 (f.target.addend.toInt + 0))).mp hr'
  rw [signed64] at haddend
  split at haddend
  · cases haddend
    cases hr'
    cases h
    rw [unsigned64] at hoffset
    split at hoffset
    · cases hoffset
      rw [Fixup.relocation, Int.add_zero]
      rfl
    · cases hoffset
  · cases haddend

theorem mapM_relocationAt {start k : Nat} {is : List Instruction} {rs : List Relocation}
    (h : (symbolFixups start is).mapM (·.relocationAt k) = .ok rs) :
    rs = ((symbolFixups start is).map Fixup.relocation).map fun r => { r with offset := r.offset + k } := by
  have hall : ∀ f ∈ symbolFixups start is, ∀ r, f.relocationAt k = .ok r →
      r = { f.relocation with offset := f.offset + k } := by
    intro f hf r hr
    obtain ⟨hkind, hend, -⟩ := mem_symbolFixups hf
    exact relocationAt_eq_ok hkind hend hr
  revert hall h
  generalize symbolFixups start is = fs
  intro h hall
  induction fs generalizing rs with
  | nil =>
    cases h
    rfl
  | cons f fs ih =>
    rw [List.mapM_cons] at h
    obtain ⟨r, hr, h⟩ := bind_eq_ok.mp h
    obtain ⟨rest, hrest, h⟩ := bind_eq_ok.mp h
    cases h
    rw [hall f List.mem_cons_self r hr, ih hrest fun g hg => hall g (List.mem_cons_of_mem _ hg)]
    rfl

/-- Fields move with their instructions. -/
theorem symbolFixups_shift (start k : Nat) (is : List Instruction) :
    ((symbolFixups start is).map Fixup.relocation).map (fun r => { r with offset := r.offset + k }) =
      (symbolFixups (start + k) is).map Fixup.relocation := by
  induction is generalizing start with
  | nil => rfl
  | cons i is ih =>
    rw [Stream.symbolFixups_cons, Stream.symbolFixups_cons, List.map_append, List.map_append, List.map_append, ih,
      Nat.add_right_comm start k]
    congr 1
    unfold fixupOf
    split
    · simp [Fixup.relocation]
      omega
    · rfl

/-- Writing the four bytes of an operand is encoding the instruction with this operand. -/
theorem patchBytes_operand {field : Nat} (h : i.operandOffset? = some field) (pre post : List UInt8) (w : Word) :
    patchBytes (pre ++ (i.encode ++ post)) (pre.length + field) w.bytes =
      pre ++ ((i.mapOperand fun _ => .value w).encode ++ post) := by
  have hlen (imm : Imm) : imm.encode.length = 4 := by cases imm <;> rfl
  have hdrop (imm : Imm) : (imm.encode ++ post).drop 4 = post := List.drop_left' (hlen imm)
  have hword : w.bytes.length = 4 := rfl
  have hvalue : (Imm.value w).encode = w.bytes := rfl
  rw [patchBytes, List.take_length_add_append, hword, Nat.add_assoc, List.drop_length_add_append]
  cases i <;> cases h <;> simp [Instruction.encode, Instruction.mapOperand, hvalue, hdrop]

theorem mapOperand_of_operand? {imm : Imm} (h : i.operand? = some imm) (g : Imm → Imm) :
    i.mapOperand g = i.mapOperand fun _ => g imm := by
  cases i <;> cases h <;> rfl

theorem mapOperand_self {g : Imm → Imm} (h : ∀ imm, i.operand? = some imm → g imm = imm) : i.mapOperand g = i := by
  cases i with
  | immediate op imm | absolute op imm | regAluImm op dst imm | floatMemAbs op prec freg imm =>
    rw [Instruction.mapOperand, h imm rfl]
  | _ => rfl

theorem operand?_mapOperand (i : Instruction) (g : Imm → Imm) : (i.mapOperand g).operand? = i.operand?.map g := by
  cases i <;> rfl

/-- Patching an instruction is linking it. -/
theorem patchAll_fixupOf (address? : String → Option Nat) (i : Instruction) (pre post : List UInt8) :
    patchAll address? ((fixupOf pre.length i).toList.map Fixup.relocation) (pre ++ (i.encode ++ post)) =
      pre ++ ((i.linked address?).encode ++ post) := by
  cases hfix : fixupOf pre.length i with
  | none =>
    have hself : i.linked address? = i := by
      refine mapOperand_self fun imm himm => ?_
      cases imm with
      | value k => rfl
      | label l => rfl
      | symbol target =>
        cases i <;> cases himm <;> cases hfix
    rw [hself]
    rfl
  | some f =>
    obtain ⟨field, target, hfield, hoperand, rfl⟩ := fixupOf_eq_some hfix
    rw [Instruction.linked, mapOperand_of_operand? hoperand, Imm.linked]
    simp only [Option.toList_some, List.map_cons, List.map_nil, patchAll, List.foldl_cons, List.foldl_nil,
      Fixup.relocation]
    cases address? target.name with
    | none => rw [mapOperand_self fun imm himm => Option.some.inj (hoperand.symm.trans himm)]
    | some a => exact patchBytes_operand hfield pre post _

theorem size_linked (address? : String → Option Nat) (i : Instruction) : (i.linked address?).size = i.size :=
  i.size_mapOperand _

/-- Patching all operands of instructions in the middle of bytes. -/
theorem patchAll_symbolFixups (address? : String → Option Nat) (is : List Instruction) (pre post : List UInt8) :
    patchAll address? ((symbolFixups pre.length is).map Fixup.relocation) (pre ++ (encodeAll is ++ post)) =
      pre ++ (encodeAll (is.map (Instruction.linked address?)) ++ post) := by
  induction is generalizing pre with
  | nil => rfl
  | cons i is ih =>
    have hcode (js : List Instruction) (j : Instruction) : encodeAll (j :: js) = j.encode ++ encodeAll js := rfl
    -- the first instruction is patched before the others
    have hfirst := patchAll_fixupOf address? i pre (encodeAll is ++ post)
    have hrest := ih (pre ++ (i.linked address?).encode)
    rw [List.length_append, Instruction.encode_length, size_linked, List.append_assoc, List.append_assoc] at hrest
    rw [Stream.symbolFixups_cons, List.map_append, patchAll, List.foldl_append, ← patchAll, ← patchAll, hcode,
      List.append_assoc, hfirst, hrest, List.map_cons, hcode, List.append_assoc]

end Instructions

/-! Functions of a section. -/

namespace Object

def relocationsFrom : Nat → List EncodedFunction → List Relocation
  | _, [] => []
  | stop, e :: es => (symbolFixups (alignUp stop 4) e.instructions).map Fixup.relocation ++
      relocationsFrom (alignUp stop 4 + e.code.length) es

def linkedCode (address? : String → Option Nat) (e : EncodedFunction) : List UInt8 :=
  encodeAll (e.instructions.map (Instruction.linked address?)) ++ e.code.drop (encodeAll e.instructions).length

variable {o o' : Object} {e : EncodedFunction} {es : List EncodedFunction} {tail bytes : List UInt8}

theorem push_eq_ok (he : e.Coded tail) (h : o.push e = .ok o') :
    o.symbol? e.name = none ∧ o' = {
      code := o.code ++ padding o.code.length ++ e.code
      symbols := o.symbols ++ [⟨e.name, alignUp o.code.length 4, e.code.length⟩]
      relocations := o.relocations ++
        (symbolFixups (alignUp o.code.length 4) e.instructions).map Fixup.relocation } := by
  rw [push] at h
  split at h
  · cases h
  · next hnew =>
    obtain ⟨rs, hrs, h⟩ := (bind_eq_ok (x := e.fixups.mapM (·.relocationAt (alignUp o.code.length 4)))).mp h
    rw [he.fixups] at hrs
    rw [mapM_relocationAt hrs, symbolFixups_shift, Nat.zero_add] at h
    exact ⟨by simpa using hnew, (Except.ok.inj h).symm⟩

theorem foldlM_push (hes : ∀ e ∈ es, ∃ tail, e.Coded tail) (h : es.foldlM push o = .ok o') :
    o'.code = sectionFrom o.code (es.map EncodedFunction.code) ∧
      o'.symbols = o.symbols ++ symbolsFrom o.code.length (es.map fun e => (e.name, e.code.length)) ∧
      o'.relocations = o.relocations ++ relocationsFrom o.code.length es := by
  induction es generalizing o with
  | nil =>
    cases h
    exact ⟨rfl, (List.append_nil _).symm, (List.append_nil _).symm⟩
  | cons e es ih =>
    rw [List.foldlM_cons] at h
    obtain ⟨o1, hpush, h⟩ := bind_eq_ok.mp h
    obtain ⟨tail, he⟩ := hes e List.mem_cons_self
    obtain ⟨-, rfl⟩ := push_eq_ok he hpush
    obtain ⟨hcode, hsymbols, hrelocs⟩ := ih (fun e he => hes e (List.mem_cons_of_mem _ he)) h
    rw [length_step] at hsymbols hrelocs
    exact ⟨hcode, by rw [hsymbols, List.append_assoc]; rfl, by rw [hrelocs, List.append_assoc]; rfl⟩

/-- No name is pushed twice. -/
theorem nodup_names (hes : ∀ e ∈ es, ∃ tail, e.Coded tail) (h : es.foldlM push o = .ok o')
    (ho : (o.symbols.map Symbol.name).Nodup) : (o'.symbols.map Symbol.name).Nodup := by
  induction es generalizing o with
  | nil =>
    cases h
    exact ho
  | cons e es ih =>
    rw [List.foldlM_cons] at h
    obtain ⟨o1, hpush, h⟩ := bind_eq_ok.mp h
    obtain ⟨tail, he⟩ := hes e List.mem_cons_self
    obtain ⟨hnew, rfl⟩ := push_eq_ok he hpush
    refine ih (fun e he => hes e (List.mem_cons_of_mem _ he)) h ?_
    rw [List.map_append, List.nodup_append]
    refine ⟨ho, List.nodup_singleton _, fun name hname name' hname' heq => ?_⟩
    obtain ⟨sym, hsym, rfl⟩ := List.mem_map.mp hname
    rw [List.mem_singleton.mp hname'] at heq
    have hnone := List.find?_eq_none.mp hnew sym hsym
    exact hnone (by simpa using heq)

theorem length_linkedCode (address? : String → Option Nat) (he : e.Coded tail) :
    (linkedCode address? e).length = e.code.length := by
  have hsize : (encodeAll (e.instructions.map (Instruction.linked address?))).length =
    (encodeAll e.instructions).length := by
    simp [encodeAll, List.length_flatMap, Function.comp_def, size_linked]
  rw [linkedCode, List.length_append, hsize, he.code, List.drop_left, List.length_append]

/-- Patching a section links all of its functions. -/
theorem patchAll_relocationsFrom (address? : String → Option Nat) (hes : ∀ e ∈ es, ∃ tail, e.Coded tail)
    {image more : List UInt8} (hlen : image.length = bytes.length)
    (hmore : sectionFrom bytes (es.map EncodedFunction.code) = bytes ++ more) :
    patchAll address? (relocationsFrom bytes.length es) (image ++ more) =
      sectionFrom image (es.map (linkedCode address?)) := by
  induction es generalizing bytes image more with
  | nil =>
    have hnil : more = [] := List.self_eq_append_right.mp hmore
    rw [hnil, List.append_nil]
    rfl
  | cons e es ih =>
    obtain ⟨tail, he⟩ := hes e List.mem_cons_self
    obtain ⟨more', hmore'⟩ :=
      sectionFrom_extends (bytes ++ padding bytes.length ++ e.code) (es.map EncodedFunction.code)
    have hsplit : more = padding image.length ++ (encodeAll e.instructions ++ (tail ++ more')) := by
      rw [List.map_cons, sectionFrom_cons, hmore', he.code] at hmore
      simpa [hlen] using hmore.symm
    have hfront : (image ++ padding image.length).length = alignUp bytes.length 4 := by
      rw [List.length_append, length_padding, hlen]
    have hfirst := patchAll_symbolFixups address? e.instructions (image ++ padding image.length) (tail ++ more')
    have hrest := ih (fun e he => hes e (List.mem_cons_of_mem _ he))
      (show (image ++ padding image.length ++ linkedCode address? e).length =
        (bytes ++ padding bytes.length ++ e.code).length by
          rw [length_step, length_step, hlen, length_linkedCode address? he]) hmore'
    rw [hfront] at hfirst
    rw [length_step] at hrest
    have hlinked : linkedCode address? e = encodeAll (e.instructions.map (Instruction.linked address?)) ++ tail := by
      rw [linkedCode, he.code, List.drop_left]
    rw [relocationsFrom, patchAll, List.foldl_append, ← patchAll, ← patchAll, hsplit, ← List.append_assoc image, hfirst,
      List.map_cons, sectionFrom_cons, ← hrest, hlinked]
    simp only [List.append_assoc]

/-- Relocations are of whole addresses, and their fields lie in the section. -/
theorem mem_relocationsFrom (hes : ∀ e ∈ es, ∃ tail, e.Coded tail) {r : Relocation}
    (h : r ∈ relocationsFrom bytes.length es) :
    r.rtype = .r32 ∧ r.offset + 4 ≤ (sectionFrom bytes (es.map EncodedFunction.code)).length := by
  induction es generalizing bytes with
  | nil => cases h
  | cons e es ih =>
    obtain ⟨tail, he⟩ := hes e List.mem_cons_self
    rw [relocationsFrom, List.mem_append] at h
    rw [List.map_cons, sectionFrom_cons]
    rcases h with h | h
    · obtain ⟨f, hf, rfl⟩ := List.mem_map.mp h
      obtain ⟨-, hend, hstop⟩ := mem_symbolFixups hf
      obtain ⟨more, hmore⟩ :=
        sectionFrom_extends (bytes ++ padding bytes.length ++ e.code) (es.map EncodedFunction.code)
      refine ⟨rfl, ?_⟩
      rw [hmore, List.length_append, length_step, he.code, List.length_append]
      change f.offset + 4 ≤ _
      omega
    · rw [← length_step] at h
      exact ih (fun e he => hes e (List.mem_cons_of_mem _ he)) h

/-- Every symbol that an instruction names has its record. -/
theorem exists_relocation (stop : Nat) (he : e ∈ es) {i : Instruction} (hi : i ∈ e.instructions) {target : SymbolRef}
    (ho : i.operand? = some (.symbol target)) :
    ∃ r ∈ relocationsFrom stop es, r.symbol = target.name ∧ r.addend = target.addend.toInt := by
  have hfix (start : Nat) (is : List Instruction) (hi : i ∈ is) : ∃ f ∈ symbolFixups start is, f.target = target := by
    induction is generalizing start with
    | nil => cases hi
    | cons j is ih =>
      rw [Stream.symbolFixups_cons]
      rcases List.mem_cons.mp hi with rfl | hi
      · refine ⟨⟨start + i.operandOffset?.getD 0, .abs32, target, start + i.size⟩, List.mem_append_left _ ?_, rfl⟩
        rw [Option.mem_toList]
        cases i <;> cases ho <;> rfl
      · obtain ⟨f, hf, htarget⟩ := ih _ hi
        exact ⟨f, List.mem_append_right _ hf, htarget⟩
  induction es generalizing stop with
  | nil => cases he
  | cons e' es ih =>
    rw [relocationsFrom]
    rcases List.mem_cons.mp he with rfl | he
    · obtain ⟨f, hf, rfl⟩ := hfix (alignUp stop 4) e.instructions hi
      exact ⟨f.relocation, List.mem_append_left _ (List.mem_map_of_mem hf), rfl, rfl⟩
    · obtain ⟨r, hr, hsame⟩ := ih _ he
      exact ⟨r, List.mem_append_right _ hr, hsame⟩

/-! Resolving relocations. -/

section Link

variable {base : Word} {externals : List (String × Word)} {rs : List Relocation} {bytes image : List UInt8}
  {r : Relocation}

theorem address_eq_ok {name : String} {w : Word} :
    o.address base externals name = .ok w ↔ o.symbolAddress? base externals name = some w.toNat := by
  unfold address symbolAddress?
  rw [symbol?]
  cases o.symbols.find? (·.name == name) with
  | some sym =>
    simp only [Option.some.injEq]
    constructor
    · intro h
      split at h
      · cases h
      · split at h
        · cases h
          rw [BitVec.toNat_add, BitVec.toNat_ofNat]
          omega
        · cases h
    · intro h
      have hlt := w.isLt
      rw [if_neg (by omega), if_pos (by omega)]
      refine congrArg Except.ok (BitVec.eq_of_toNat_eq ?_)
      rw [BitVec.toNat_add, BitVec.toNat_ofNat]
      omega
  | none =>
    rw [orFail_eq_ok, Option.map_eq_some_iff]
    constructor
    · intro h
      exact ⟨w, h, rfl⟩
    · rintro ⟨v, hv, hw⟩
      rw [hv, BitVec.eq_of_toNat_eq hw]

/-- The symbol has an address, and together with the addend it fits into a field of four bytes. -/
def Resolves (o : Object) (base : Word) (externals : List (String × Word)) (name : String) (addend : Int) : Prop :=
  ∃ a, o.symbolAddress? base externals name = some a ∧ a < 4294967296 ∧ -2147483648 ≤ a + addend ∧
    a + addend < 4294967296

theorem lowBytes_four (value : Int) : lowBytes 4 value = Word.bytes (BitVec.ofInt 32 value) := by
  have hnat : (BitVec.ofInt 32 value).toNat = (value % 4294967296).toNat := by simp [BitVec.toNat_ofInt]
  have hbyte (k : Int) (n : Nat) (h : (k % 256).toNat = n % 256) : UInt8.ofNat (k % 256).toNat = UInt8.ofNat n := by
    rw [h]
    refine UInt8.toNat_inj.mp ?_
    simp [UInt8.toNat_ofNat']
  simp only [lowBytes, Word.bytes, hnat]
  refine List.cons_eq_cons.mpr ⟨hbyte _ _ (by omega), List.cons_eq_cons.mpr ⟨hbyte _ _ (by omega),
    List.cons_eq_cons.mpr ⟨hbyte _ _ (by omega), List.cons_eq_cons.mpr ⟨hbyte _ _ (by omega), rfl⟩⟩⟩⟩

theorem inRange_abs32 {value : Int} :
    FixupKind.abs32.inRange value = true ↔ -2147483648 ≤ value ∧ value < 4294967296 := by
  simp [FixupKind.inRange, FixupKind.width, FixupKind.isPcRelative, Nat.shiftLeft_eq]

theorem relocation_apply (hr : r.rtype = .r32) (hfits : r.offset + 4 ≤ bytes.length) (w : Word) :
    r.apply bytes base w = .ok image ↔ (-2147483648 ≤ (w.toNat : Int) + r.addend ∧ w.toNat + r.addend < 4294967296) ∧
      image = patchBytes bytes r.offset (Word.bytes (BitVec.ofInt 32 (w.toNat + r.addend))) := by
  have hplace : fieldAddress bytes base r.offset = .ok (base.toNat + r.offset) := if_pos (by omega)
  have hwidth : r.offset + FixupKind.abs32.width ≤ bytes.length := hfits
  rw [Relocation.apply, hr]
  change (r.value .abs32 bytes base w >>= FixupKind.abs32.apply bytes r.offset) = _ ↔ _
  rw [Relocation.value, hplace, ok_bind, signed64, ← inRange_abs32, ← lowBytes_four]
  split
  · change FixupKind.abs32.apply bytes r.offset (w.toNat + r.addend) = _ ↔ _
    rw [FixupKind.apply, if_pos hwidth]
    split
    · next hrange => simp [hrange, eq_comm, FixupKind.width]
    · next hrange => simp [hrange, fail]
  · refine ⟨fun h => ?_, fun h => ?_⟩
    · cases h
    · have := inRange_abs32.mp h.1
      omega

theorem apply_eq_ok (hr : r.rtype = .r32) (hfits : r.offset + 4 ≤ bytes.length) :
    (o.address base externals r.symbol >>= fun w => r.apply bytes base w) = .ok image ↔
      o.Resolves base externals r.symbol r.addend ∧ image = patchAll (o.symbolAddress? base externals) [r] bytes := by
  rw [bind_eq_ok, patchAll, List.foldl_cons, List.foldl_nil]
  constructor
  · rintro ⟨w, hw, h⟩
    obtain ⟨⟨hlow, hhigh⟩, rfl⟩ := (relocation_apply hr hfits w).mp h
    have haddress := address_eq_ok.mp hw
    rw [haddress]
    exact ⟨⟨w.toNat, haddress, w.isLt, hlow, hhigh⟩, rfl⟩
  · rintro ⟨⟨a, haddress, hlt, hlow, hhigh⟩, rfl⟩
    have hnat : (BitVec.ofNat 32 a).toNat = a := by rw [BitVec.toNat_ofNat]; omega
    refine ⟨BitVec.ofNat 32 a, address_eq_ok.mpr (by rw [hnat, haddress]), (relocation_apply hr hfits _).mpr ?_⟩
    rw [hnat, haddress]
    exact ⟨⟨hlow, hhigh⟩, rfl⟩

theorem length_patchAll_single (address? : String → Option Nat) (hfits : r.offset + 4 ≤ bytes.length) :
    (patchAll address? [r] bytes).length = bytes.length := by
  rw [patchAll, List.foldl_cons, List.foldl_nil]
  cases address? r.symbol with
  | none => rfl
  | some a =>
    have hword (w : Word) : w.bytes.length = 4 := rfl
    simp only [patchBytes, List.length_append, List.length_take, List.length_drop, hword]
    omega

/-- Linking succeeds where every relocation resolves, and then all fields are patched. -/
theorem foldlM_apply_eq_ok (hrs : ∀ r ∈ rs, r.rtype = .r32 ∧ r.offset + 4 ≤ bytes.length) :
    rs.foldlM (fun image r => do r.apply image base (← o.address base externals r.symbol)) bytes = .ok image ↔
      (∀ r ∈ rs, o.Resolves base externals r.symbol r.addend) ∧
        image = patchAll (o.symbolAddress? base externals) rs bytes := by
  induction rs generalizing bytes with
  | nil =>
    rw [List.foldlM_nil]
    constructor
    · intro h
      cases h
      exact ⟨by simp, rfl⟩
    · rintro ⟨-, rfl⟩
      rfl
  | cons r rs ih =>
    obtain ⟨hr, hfits⟩ := hrs r List.mem_cons_self
    have hlen := length_patchAll_single (o.symbolAddress? base externals) hfits
    have hrest := ih fun r' hr' => by
      have hfits' := hrs r' (List.mem_cons_of_mem _ hr')
      rwa [← hlen] at hfits'
    rw [List.foldlM_cons, bind_eq_ok]
    constructor
    · rintro ⟨mid, hmid, h⟩
      obtain ⟨hresolves, rfl⟩ := (apply_eq_ok hr hfits).mp hmid
      obtain ⟨hall, rfl⟩ := hrest.mp h
      exact ⟨List.forall_mem_cons.mpr ⟨hresolves, hall⟩, rfl⟩
    · rintro ⟨hall, rfl⟩
      obtain ⟨hresolves, hall⟩ := List.forall_mem_cons.mp hall
      exact ⟨_, (apply_eq_ok hr hfits).mpr ⟨hresolves, rfl⟩, hrest.mpr ⟨hall, rfl⟩⟩

end Link

/-! Modules. -/

structure Linked (o : Object) (fs : List Ir.Function) (options : Options) (base : Word)
    (externals : List (String × Word)) (image : List UInt8) : Prop where
  length : image.length = o.code.length
  /-- At the offset of each function are its instructions with addresses for symbols, and then its constants. -/
  functions : ∀ (i : Nat) f, fs[i]? = some f → ∃ e selected sym, f.compile options = .ok e ∧
    f.selectOperations = .ok selected ∧ o.symbols[i]? = some sym ∧ sym.name = f.name ∧ sym.size = e.code.length ∧
    4 ∣ sym.offset ∧ (image.drop sym.offset).take sym.size =
      encodeAll (e.instructions.map (Instruction.linked (o.symbolAddress? base externals))) ++
        poolImage (encodeAll e.instructions).length selected.routine.pool.flatten
  /-- No symbol is left. -/
  resolved : ∀ f ∈ fs, ∀ e, f.compile options = .ok e → ∀ i ∈ e.instructions, ∀ imm,
    (i.linked (o.symbolAddress? base externals)).operand? = some imm → imm.isSymbolic = false
  /-- The name of a function stands for that function, whatever the externals are. -/
  own : ∀ sym ∈ o.symbols, o.symbolAddress? base externals sym.name = some (base.toNat + sym.offset)
  /-- Functions follow each other as closely as word boundaries allow, with no-operations in between. -/
  first : ∀ sym, o.symbols[0]? = some sym → sym.offset = 0
  next : ∀ (i : Nat) sym sym', o.symbols[i]? = some sym → o.symbols[i + 1]? = some sym' →
    sym'.offset = alignUp (sym.offset + sym.size) 4
  gap : ∀ k < image.length, (∀ sym ∈ o.symbols, k < sym.offset ∨ sym.offset + sym.size ≤ k) →
    image[k]? = some Opcode.nop.byte

section Module

variable {fs : List Ir.Function} {options : Options} {o : Object} {base : Word} {externals : List (String × Word)}
  {image : List UInt8}

theorem compileModule_eq_ok (h : compileModule fs options = .ok o) :
    ∃ es, fs.mapM (Ir.Function.compile · options) = .ok es ∧ es.foldlM push {} = .ok o := by
  rw [compileModule] at h
  generalize ({} : Object) = start at h ⊢
  induction fs generalizing start with
  | nil => exact ⟨[], rfl, h⟩
  | cons f fs ih =>
    rw [List.foldlM_cons] at h
    obtain ⟨next, hnext, h⟩ := bind_eq_ok.mp h
    obtain ⟨e, he, hpush⟩ := bind_eq_ok.mp hnext
    obtain ⟨es, hes, hrest⟩ := ih next h
    refine ⟨e :: es, ?_, ?_⟩
    · rw [List.mapM_cons, he, ok_bind, hes]
      rfl
    · rw [List.foldlM_cons, hpush, ok_bind, hrest]

/-- A symbol of the section is found where its code is. -/
theorem symbolAddress_own (hnames : (o.symbols.map Symbol.name).Nodup) {sym : Symbol} (hsym : sym ∈ o.symbols) :
    o.symbolAddress? base externals sym.name = some (base.toNat + sym.offset) := by
  have hfind : o.symbols.find? (·.name == sym.name) = some sym := by
    cases hfound : o.symbols.find? (·.name == sym.name) with
    | none => exact absurd (beq_self_eq_true sym.name) (List.find?_eq_none.mp hfound sym hsym)
    | some found =>
      have hname : found.name = sym.name := by simpa using List.find?_some hfound
      rw [List.inj_on_of_nodup_map hnames (List.mem_of_find?_eq_some hfound) hsym hname]
  rw [symbolAddress?, hfind]

theorem symbolAddress_lt (hbase : ∀ sym ∈ o.symbols, base.toNat + sym.offset < 4294967296) {name : String} {a : Nat}
    (h : o.symbolAddress? base externals name = some a) : a < 4294967296 := by
  unfold symbolAddress? at h
  split at h
  · next sym hfound =>
    cases h
    exact hbase sym (List.mem_of_find?_eq_some hfound)
  · obtain ⟨w, -, rfl⟩ := Option.map_eq_some_iff.mp h
    exact w.isLt

theorem holds_patchAll {es : List EncodedFunction} (hcoded : ∀ e ∈ es, ∃ tail, e.Coded tail)
    (hpush : es.foldlM push {} = .ok o) (address? : String → Option Nat) :
    (patchAll address? o.relocations o.code).length = o.code.length ∧
      Holds 0 o.symbols (es.map (linkedCode address?)) (patchAll address? o.relocations o.code) := by
  obtain ⟨hcode, hsymbols, hrelocs⟩ := foldlM_push hcoded hpush
  have hlen : ∀ e ∈ es, (linkedCode address? e).length = e.code.length := by
    intro e he
    obtain ⟨tail, htail⟩ := hcoded e he
    exact length_linkedCode address? htail
  have hpatched : patchAll address? o.relocations o.code = sectionFrom [] (es.map (linkedCode address?)) := by
    rw [hrelocs]
    exact patchAll_relocationsFrom address? hcoded rfl hcode.symm
  have hnamed : o.symbols = symbolsFrom 0 (es.map fun e => (e.name, (linkedCode address? e).length)) := by
    rw [hsymbols, List.nil_append]
    congr 1
    refine List.map_congr_left fun e he => ?_
    rw [hlen e he]
  refine ⟨?_, ?_⟩
  · rw [hpatched, hcode]
    refine length_sectionFrom rfl ?_
    rw [List.map_map, List.map_map]
    exact List.map_congr_left hlen
  · have hholds := sectionFrom_holds [] (es.map fun e => (e.name, linkedCode address? e))
    rw [List.map_map, List.map_map] at hholds
    rw [hpatched, hnamed]
    exact hholds

/-- Linking a module replaces the symbols of its instructions by addresses, and changes nothing else. -/
theorem compileModule_linked (h : compileModule fs options = .ok o) (base : Word) (externals : List (String × Word)) :
    ((∀ r ∈ o.relocations, ∃ a : Nat, o.symbolAddress? base externals r.symbol = some a ∧ 0 ≤ a + r.addend ∧
        a + r.addend < 4294967296) → (∀ sym ∈ o.symbols, base.toNat + sym.offset < 4294967296) →
      ∃ image, o.link base externals = .ok image) ∧
    ∀ image, o.link base externals = .ok image → o.Linked fs options base externals image := by
  obtain ⟨es, hes, hpush⟩ := compileModule_eq_ok h
  obtain ⟨hlen, hcompiled⟩ := Stream.mapM_ok hes
  have hcoded : ∀ e ∈ es, ∃ tail, e.Coded tail := by
    intro e he
    obtain ⟨f, -, hf⟩ := mem_mapM_ok hes he
    obtain ⟨selected, -, -, he⟩ := compile_coded hf
    exact ⟨_, he⟩
  obtain ⟨hcode, hsymbols, hrelocs⟩ := foldlM_push hcoded hpush
  have hnames := nodup_names hcoded hpush List.nodup_nil
  rw [List.nil_append] at hsymbols hrelocs
  have hfields : ∀ r ∈ o.relocations, r.rtype = .r32 ∧ r.offset + 4 ≤ o.code.length := by
    intro r hr
    rw [hrelocs] at hr
    rw [hcode]
    exact mem_relocationsFrom hcoded hr
  constructor
  · intro hresolves hbase
    refine ⟨_, (foldlM_apply_eq_ok hfields).mpr ⟨fun r hr => ?_, rfl⟩⟩
    obtain ⟨a, ha, hlow, hhigh⟩ := hresolves r hr
    exact ⟨a, ha, symbolAddress_lt hbase ha, by omega, hhigh⟩
  · intro image hlink
    obtain ⟨hresolves, rfl⟩ := (foldlM_apply_eq_ok hfields).mp hlink
    obtain ⟨hlength, hholds⟩ := holds_patchAll hcoded hpush (o.symbolAddress? base externals)
    constructor
    case length => exact hlength
    case functions =>
      intro i f hf
      obtain ⟨e, he, hcompile⟩ := hcompiled i f hf
      obtain ⟨selected, hselect, hname, htail⟩ := compile_coded hcompile
      have hpart : (es.map (linkedCode (o.symbolAddress? base externals)))[i]? =
          some (linkedCode (o.symbolAddress? base externals) e) := by rw [List.getElem?_map, he]; rfl
      have hlt : i < o.symbols.length := by
        rw [hholds.length]
        exact (List.getElem?_eq_some_iff.mp hpart).1
      have hsym := List.getElem?_eq_getElem hlt
      obtain ⟨halign, hsize, hslice⟩ := hholds.part i _ _ hsym hpart
      have hnamed : (o.symbols[i].name, o.symbols[i].size) = (e.name, e.code.length) := by
        have hall := symbolsFrom_named 0 (es.map fun e => (e.name, e.code.length))
        rw [show symbolsFrom 0 _ = o.symbols from hsymbols.symm] at hall
        have hi := congrArg (fun names => names[i]?) hall
        simp only [List.getElem?_map, hsym, he, Option.map_some] at hi
        exact Option.some.inj hi
      refine ⟨e, selected, o.symbols[i], hcompile, hselect, hsym, (Prod.mk.inj hnamed).1.trans hname,
        (Prod.mk.inj hnamed).2, halign, hslice.trans ?_⟩
      rw [linkedCode, htail.code, List.drop_left]
    case resolved =>
      intro f hf e hcompile i hi imm himm
      obtain ⟨k, hk⟩ := List.mem_iff_getElem?.mp hf
      obtain ⟨e', he, hcompile'⟩ := hcompiled k f hk
      cases hcompile.symm.trans hcompile'
      obtain ⟨selected, -, -, htail⟩ := compile_coded hcompile
      rw [Instruction.linked, operand?_mapOperand, Option.map_eq_some_iff] at himm
      obtain ⟨old, hold, rfl⟩ := himm
      cases old with
      | value k => rfl
      | label l => exact absurd hold (htail.labels i hi l)
      | symbol target =>
        obtain ⟨r, hr, hname, -⟩ := exists_relocation 0 (List.mem_of_getElem? he) hi hold
        obtain ⟨a, ha, -⟩ := hresolves r (by rw [hrelocs]; exact hr)
        rw [hname] at ha
        rw [Imm.linked, ha]
        rfl
    case own => exact fun sym hsym => symbolAddress_own hnames hsym
    case first => exact fun sym hsym => hholds.first sym hsym
    case next => exact hholds.next
    case gap => exact fun k hk hout => hholds.gap k (Nat.zero_le k) hk hout

end Module

section Addresses

open Allocation

/-- A function that returns an address: that of a place in another function, or that of an external. -/
def pointerTo (outer : Bool) : Ir.Function where
  name := if outer then "outer" else "inner"
  returns := [.ptr]
  blocks := [⟨[if outer then .globalAddr 0 ⟨"inner", 8#32⟩ else .externalSymbol 0 "clock"], .ret [0]⟩]
  valueTypes := [.ptr]

private def addressTarget (outer : Bool) : AddrTarget := .symbol (if outer then ⟨"inner", 8#32⟩ else ⟨"clock", 0#32⟩)

private def addressOps (outer : Bool) : Routine where
  name := if outer then "outer" else "inner"
  blocks := [[.loadAddr (.virt 0) (addressTarget outer), .copy (.phys (.general 0)) (.virt 0), .ret [.general 0]]]
  classes := [.gpr]

private def addressCode (outer : Bool) : Routine :=
  { addressOps outer with
    blocks := [[.spAdjust (-4#32), .loadAddr (.phys (.general 0)) (addressTarget outer),
      .copy (.phys (.general 0)) (.phys (.general 0)), .spAdjust 4#32, .ret [.general 0]]] }

private theorem compile_pointerTo (outer : Bool) :
    (pointerTo outer).compile {} = Prod.fst <$> (addressCode outer).assemble wordFrame {} := by
  have hframed : (pointerTo outer).framed = .ok (wordFrame, addressCode outer) := by
    have hi : intervals (addressOps outer) = [⟨0, ⟨1, 2⟩⟩] := by
      cases outer <;> exact intervals_eq (by decide +kernel) (by decide +kernel)
    have hview : viewScan (addressOps outer) .base [⟨0, ⟨1, 2⟩⟩] = .ok ([(0, .general 0)], []) := by
      cases outer <;> decide +kernel
    have hsel : (pointerTo outer).selectOperations = .ok ⟨addressOps outer, {}⟩ := by cases outer <;> rfl
    exact framed_of_scan hsel (by cases outer <;> decide +kernel) hi hview (by cases outer <;> decide +kernel)
  rw [compile_eq_framed, hframed, ok_bind]

def addressObject : Object where
  code := [186, 138, 56, 66, 233, 4, 0, 0, 0, 170, 154, 2, 232, 2, 0, 0, 0, 0, 0,
    186, 138, 24, 66, 105, 4, 0, 0, 0, 170, 154, 96, 234,
    186, 138, 56, 66, 233, 4, 0, 0, 0, 170, 154, 2, 232, 2, 0, 0, 0, 0, 0,
    186, 138, 24, 66, 105, 4, 0, 0, 0, 170, 154, 96]
  symbols := [⟨"outer", 0, 31⟩, ⟨"inner", 32, 31⟩]
  relocations := [⟨15, .r32, "inner", 8⟩, ⟨47, .r32, "clock", 0⟩]

private theorem compileModule_addresses : compileModule [pointerTo true, pointerTo false] {} = .ok addressObject := by
  rw [compileModule, List.foldlM_cons, compile_pointerTo]
  simp only [List.foldlM_cons, List.foldlM_nil, compile_pointerTo]
  decide +kernel

/-- The external `inner` is hidden by the function. -/
theorem compileModule_linked_addresses :
    compileModule [pointerTo true, pointerTo false] {} = .ok addressObject ∧
    ∃ image, addressObject.link 0x1000#32 [("clock", 0xf0000000#32), ("inner", 5#32)] = .ok image ∧
      addressObject.Linked [pointerTo true, pointerTo false] {} 0x1000#32
        [("clock", 0xf0000000#32), ("inner", 5#32)] image := by
  obtain ⟨hsucceeds, hlinked⟩ := compileModule_linked compileModule_addresses 0x1000#32
    [("clock", 0xf0000000#32), ("inner", 5#32)]
  obtain ⟨image, himage⟩ := hsucceeds (by decide +kernel) (by decide +kernel)
  exact ⟨compileModule_addresses, image, himage, hlinked image himage⟩

end Addresses

end Object

end DirectPage
