import DirectPage.Proofs.SpillCode

/-! What operations refer to, and which bank each of their operands must be in.

References are by number: to virtual registers, constants, frame objects and blocks. Selection only ever
adds to what can be referred to, so a reference stays good once it is. -/
namespace DirectPage

/-- Whether an error blames a reference: to a value, block, slot, constant, frame object or label that is not there,
or to a register without class, without assignment or outside the first sixteen. -/
def Error.isDangling : Error → Bool
  | invalidInput _ | unassignedRegister _ | unresolvedLabel _ => true
  | internal (.branchTarget _) | internal (.blockAddress _) | internal (.poolEntry _) | internal (.frameIndex _) => true
  | internal (.noClass _) | internal (.spilledNoClass _) | internal (.floatBase _) => true
  | _ => false

/-- A computation that does not fail for a reference, and does not abort unless `stops`. -/
def Grounded (stops : Prop) {α : Type} (x : Checked α) : Prop :=
  ∀ e, x = .error e → (e = .abort ∧ stops) ∨ ∃ d, e = .error d ∧ d.isDangling = false

namespace Grounded

variable {α β : Type} {stops : Prop} {e : Error} {x : Checked α} {xs : List α}

theorem ok (a : α) : Grounded stops (.ok a) := by
  intro e h
  cases h

theorem aborted : Grounded True (abort : Checked α) := by
  intro e h
  cases h
  exact .inl ⟨rfl, trivial⟩

theorem failed (h : e.isDangling = false) : Grounded stops (fail e : Checked α) := by
  intro d hd
  cases hd
  exact .inr ⟨e, rfl, h⟩

/-- The error of a computation that failed. -/
theorem isDangling (hx : Grounded stops x) (h : x = .error (.error e)) : e.isDangling = false := by
  obtain ⟨he, -⟩ | ⟨d, he, hd⟩ := hx _ h
  · cases he
  · cases he
    exact hd

theorem imp {stops' : Prop} (hx : Grounded stops x) (h : stops → stops') : Grounded stops' x :=
  fun e he => (hx e he).imp_left (And.imp_right h)

theorem mono (hx : Grounded False x) : Grounded stops x := hx.imp False.elim

theorem bind {k : α → Checked β} (hx : Grounded stops x) (hk : ∀ a, x = .ok a → Grounded stops (k a)) :
    Grounded stops (x >>= k) := by
  intro e h
  cases hr : x with
  | error d =>
    rw [hr] at h
    cases h
    exact hx e hr
  | ok a =>
    rw [hr] at h
    exact hk a hr e h

theorem map (g : α → β) (hx : Grounded stops x) : Grounded stops (g <$> x) := by
  intro e h
  cases x with
  | error d =>
    cases h
    exact hx e rfl
  | ok a => cases h

theorem orFail (h : e.isDangling = false) (o : Option α) : Grounded stops (orFail e o) := by
  cases o with
  | none => exact failed h
  | some a => exact ok a

theorem mapM {g : α → Checked β} (h : ∀ x ∈ xs, Grounded stops (g x)) : Grounded stops (xs.mapM g) := by
  induction xs with
  | nil => exact ok []
  | cons x xs ih =>
    rw [List.mapM_cons]
    exact bind (h x (by simp)) fun _ _ => bind (ih fun y hy => h y (by simp [hy])) fun _ _ => ok _

theorem foldlM {step : β → α → Checked β} {b : β} (h : ∀ b, ∀ x ∈ xs, Grounded stops (step b x)) :
    Grounded stops (xs.foldlM step b) := by
  induction xs generalizing b with
  | nil => exact ok b
  | cons x xs ih =>
    rw [List.foldlM_cons]
    exact bind (h b x (by simp)) fun _ _ => ih fun c y hy => h c y (by simp [hy])

end Grounded

theorem grounded_unsigned32 {n : Nat} {stops : Prop} (h : 4294967296 ≤ n → stops) : Grounded stops (unsigned32 n) := by
  rw [unsigned32]
  split
  · exact .ok _
  · next hn =>
    intro e he
    cases he
    exact .inl ⟨rfl, h (Nat.le_of_not_lt hn)⟩

def RegClass.storage : RegClass → StorageClass
  | gpr | gprLow => .general
  | fpr => .floatingPoint

/-- What there is to refer to: virtual registers with their classes, and how many constants, frame objects and
blocks. -/
structure Scope where
  classes : List RegClass
  constants : Nat
  objects : Nat
  blocks : Nat

namespace Scope

def class? (S : Scope) : Reg → Option RegClass
  | .virt v => S.classes[v]?
  | .phys _ => none

def storage? (S : Scope) : Reg → Option StorageClass
  | .virt v => (S.class? (.virt v)).map RegClass.storage
  | .phys r => some r.storage

def Knows (S : Scope) (r : Reg) : Prop := ∀ v, r = .virt v → v < S.classes.length

def Names (S : Scope) : AddrTarget → Prop
  | .symbol _ => True
  | .block b => b < S.blocks
  | .pool i => i < S.constants

structure Within (S T : Scope) : Prop where
  classes : S.classes <+: T.classes
  constants : S.constants ≤ T.constants
  objects : S.objects ≤ T.objects
  blocks : S.blocks = T.blocks

variable {S T U : Scope} {r : Reg} {c : RegClass}

theorem Within.refl (S : Scope) : S.Within S := ⟨List.prefix_refl _, Nat.le_refl _, Nat.le_refl _, rfl⟩

theorem Within.trans (h : S.Within T) (h' : T.Within U) : S.Within U :=
  ⟨h.classes.trans h'.classes, Nat.le_trans h.constants h'.constants, Nat.le_trans h.objects h'.objects,
    h.blocks.trans h'.blocks⟩

theorem Within.class? (h : S.Within T) (hr : S.class? r = some c) : T.class? r = some c := by
  cases r with
  | phys r => cases hr
  | virt v =>
    obtain ⟨more, hmore⟩ := h.classes
    rw [Scope.class?, ← hmore, List.getElem?_append_left (List.getElem?_eq_some_iff.mp hr).1]
    exact hr

theorem Within.knows (h : S.Within T) (hr : S.Knows r) : T.Knows r :=
  fun v hv => Nat.lt_of_lt_of_le (hr v hv) h.classes.length_le

theorem Within.names (h : S.Within T) {t : AddrTarget} (ht : S.Names t) : T.Names t := by
  cases t with
  | symbol s => trivial
  | block b => exact Nat.lt_of_lt_of_eq ht h.blocks
  | pool i => exact Nat.lt_of_lt_of_le ht h.constants

theorem storage?_of_class? (h : S.class? r = some c) : S.storage? r = some c.storage := by
  cases r with
  | phys r => cases h
  | virt v => rw [storage?, h, Option.map_some]

theorem knows_of_class? (h : S.class? r = some c) : S.Knows r := by
  rintro v rfl
  exact (List.getElem?_eq_some_iff.mp h).1

theorem knows_phys (r : Register) : S.Knows (.phys r) := fun v hv => by cases hv

/-- A virtual register that has a class, and if `strict` in the given bank. -/
structure Meets (S : Scope) (strict : Prop) (bank : StorageClass) (r : Reg) : Prop where
  classed : ∃ c, S.class? r = some c
  banked : strict → S.storage? r = some bank

variable {bank : StorageClass} {strict : Prop}

theorem meets_of_class? (h : S.class? r = some c) (hc : c.storage = bank) : S.Meets strict bank r :=
  ⟨⟨c, h⟩, fun _ => by rw [storage?_of_class? h, hc]⟩

theorem Meets.knows (h : S.Meets strict bank r) : S.Knows r :=
  h.classed.elim fun _ => knows_of_class?

theorem Meets.ne_phys (h : S.Meets strict bank r) (q : Register) : r ≠ .phys q := by
  rintro rfl
  obtain ⟨c, hc⟩ := h.classed
  cases hc

end Scope

def Compare.storage : Compare → StorageClass
  | int .. => .general
  | float .. => .floatingPoint

namespace Pseudo

@[simp] def demands : Pseudo → List (Reg × StorageClass)
  | loadImm dst _ | loadAddr dst _ | frameAddr dst _ _ | spAddr dst _ => [(dst, .general)]
  | alu _ dst lhs rhs | mulDiv _ dst lhs rhs => [(dst, .general), (lhs, .general), (rhs, .general)]
  | aluImm _ dst src _ | unary _ dst src | dynAlloc dst src _ => [(dst, .general), (src, .general)]
  | shift _ dst src amount => (dst, .general) :: (src, .general) :: amount.regs.map (·, .general)
  | load r _ _ base _ | store r _ base _ => (r, .general) :: base.regs.map (·, .general)
  | fload r _ base | fstore r _ base => (r, .floatingPoint) :: base.regs.map (·, .general)
  | falu _ _ dst lhs rhs => [(dst, .floatingPoint), (lhs, .floatingPoint), (rhs, .floatingPoint)]
  | funary _ _ dst src | fconvert _ dst src => [(dst, .floatingPoint), (src, .floatingPoint)]
  | ftoi _ dst src | floatBits dst src => [(dst, .general), (src, .floatingPoint)]
  | itof _ dst src | bitsFloat dst src => [(dst, .floatingPoint), (src, .general)]
  | selectCc cmp _ _ _ | brCc cmp _ => cmp.regs.map (·, cmp.storage)
  | call (.reg r) _ _ => [(r, .general)]
  | _ => []

def alike : Pseudo → List Reg
  | copy dst src => [dst, src]
  | selectCc _ dst onTrue onFalse => [dst, onTrue, onFalse]
  | _ => []

def floatBase? : Pseudo → Option Reg
  | fload _ _ (.reg r) | fstore _ _ (.reg r) => some r
  | _ => none

/-- No position is left out. -/
theorem mem_regs_iff {m : Pseudo} {r : Reg} : r ∈ m.regs ↔ r ∈ m.demands.map Prod.fst ∨ r ∈ m.alike := by
  cases m with
  | call target args clobbers => cases target <;> simp [regs, alike]
  | _ => simp [regs, alike, Function.comp_def]

/-- Every register is in the bank that its position requires, and addresses of float accesses are in one of the first
sixteen. -/
structure Banked (S : Scope) (m : Pseudo) : Prop where
  demands : ∀ p ∈ m.demands, S.storage? p.1 = some p.2
  alike : ∃ bank, ∀ r ∈ m.alike, S.storage? r = some bank
  base : ∀ r, m.floatBase? = some r → S.class? r = some .gprLow

end Pseudo

def argumentRegs : List Register := intArgRegs ++ floatArgRegs

/-- An operation refers only to what there is, writes no assigned register but for arguments, and if `strict` does
not mix the banks. -/
structure Pseudo.InScope (S : Scope) (strict : Prop) (m : Pseudo) : Prop where
  known : ∀ r ∈ m.regs, S.Knows r
  result : ∀ r, m.dst? = some (.phys r) → r ∈ argumentRegs
  frame : ∀ i, m.frameRef? = some i → i < S.objects
  address : ∀ dst target, m = .loadAddr dst target → S.Names target
  base : ∀ r, m.floatBase? = some r → S.class? r = some .gprLow
  banked : strict → m.Banked S

namespace Pseudo

variable {S : Scope} {strict : Prop} {m : Pseudo}

/-- Operations that copy nothing: what their registers have to be, and what they refer to. -/
theorem InScope.of_demands (halike : m.alike = []) (h : ∀ p ∈ m.demands, S.Meets strict p.2 p.1)
    (hframe : ∀ i, m.frameRef? = some i → i < S.objects)
    (haddress : ∀ dst target, m = .loadAddr dst target → S.Names target)
    (hbase : ∀ r, m.floatBase? = some r → S.class? r = some .gprLow) : m.InScope S strict := by
  have hregs : ∀ r ∈ m.regs, ∃ bank, S.Meets strict bank r := by
    intro r hr
    rcases mem_regs_iff.mp hr with hr | hr
    · obtain ⟨p, hp, rfl⟩ := List.mem_map.mp hr
      exact ⟨p.2, h p hp⟩
    · rw [halike] at hr
      cases hr
  refine ⟨fun r hr => ?_, fun r hr => ?_, hframe, haddress, hbase,
    fun hstrict => ⟨fun p hp => (h p hp).banked hstrict, ?_, hbase⟩⟩
  · obtain ⟨bank, hmeets⟩ := hregs r hr
    exact hmeets.knows
  · obtain ⟨bank, hmeets⟩ := hregs _ (mem_regs_of_dst? hr)
    exact absurd rfl (hmeets.ne_phys r)
  · exact ⟨.general, by simp [halike]⟩

def isPlain : Pseudo → Bool
  | copy .. | selectCc .. | loadAddr .. | frameAddr .. | load _ _ _ (.frame _) _ | store _ _ (.frame _) _ => false
  | fload _ _ (.reg _) | fstore _ _ (.reg _) => false
  | _ => true

theorem InScope.plain (hm : m.isPlain = true) (h : ∀ p ∈ m.demands, S.Meets strict p.2 p.1) : m.InScope S strict := by
  refine .of_demands ?_ h ?_ ?_ ?_
  · cases m with
    | copy | selectCc => cases hm
    | _ => rfl
  · cases m with
    | load dst width ext base offset => cases base <;> cases hm <;> simp [frameRef?]
    | store src width base offset => cases base <;> cases hm <;> simp [frameRef?]
    | frameAddr => cases hm
    | _ => simp [frameRef?]
  · rintro dst target rfl
    cases hm
  · cases m with
    | fload dst prec base | fstore src prec base =>
      cases base <;> cases hm
      simp [floatBase?]
    | _ => simp [floatBase?]

variable {d s : Reg} {bank : StorageClass} {r : Register}

private theorem InScope.copy_of (hd : S.Knows d) (hs : S.Knows s) (hresult : ∀ r, d = .phys r → r ∈ argumentRegs)
    (hbank : strict → ∃ bank, S.storage? d = some bank ∧ S.storage? s = some bank) :
    (Pseudo.copy d s).InScope S strict where
  known := by simp [regs, hd, hs]
  result r hr := hresult r (Option.some.inj hr)
  frame := by simp [frameRef?]
  address := by simp
  base := by simp [floatBase?]
  banked hstrict := by
    obtain ⟨bank, hbd, hbs⟩ := hbank hstrict
    exact ⟨by simp, ⟨bank, by simp [alike, hbd, hbs]⟩, by simp [floatBase?]⟩

theorem InScope.copy (hd : S.Meets strict bank d) (hs : S.Meets strict bank s) :
    (Pseudo.copy d s).InScope S strict :=
  copy_of hd.knows hs.knows (fun r hr => absurd hr (hd.ne_phys r)) fun hstrict =>
    ⟨bank, hd.banked hstrict, hs.banked hstrict⟩

/-- An assigned register is copied. -/
theorem InScope.copyFrom (hd : S.Meets strict r.storage d) : (Pseudo.copy d (.phys r)).InScope S strict :=
  copy_of hd.knows (Scope.knows_phys r) (fun q hq => absurd hq (hd.ne_phys q)) fun hstrict =>
    ⟨_, hd.banked hstrict, rfl⟩

theorem InScope.copyTo (hr : r ∈ argumentRegs) (hs : S.Meets strict r.storage s) :
    (Pseudo.copy (.phys r) s).InScope S strict :=
  copy_of (Scope.knows_phys r) hs.knows (fun _ hq => Reg.phys.inj hq ▸ hr) fun hstrict => ⟨_, rfl, hs.banked hstrict⟩

theorem InScope.selectCc {cmp : Compare} {t e : Reg} (hcmp : ∀ r ∈ cmp.regs, S.Meets strict cmp.storage r)
    (hd : S.Meets strict bank d) (ht : S.Meets strict bank t)
    (he : S.Meets strict bank e) : (Pseudo.selectCc cmp d t e).InScope S strict where
  known r hr := by
    rcases List.mem_append.mp hr with hr | hr
    · exact (hcmp r hr).knows
    · have hrest : ∀ r ∈ [d, t, e], S.Knows r := by simp [hd.knows, ht.knows, he.knows]
      exact hrest r hr
  result r hr := by
    cases hr
    exact absurd rfl (hd.ne_phys r)
  frame := by simp [frameRef?]
  address := by simp
  base := by simp [floatBase?]
  banked hstrict := by
    refine ⟨fun p hp => ?_, ⟨bank, by simp [alike, hd.banked hstrict, ht.banked hstrict, he.banked hstrict]⟩,
      by simp [floatBase?]⟩
    obtain ⟨r, hr, rfl⟩ := List.mem_map.mp hp
    exact (hcmp r hr).banked hstrict

end Pseudo

structure MemBase.InScope (S : Scope) (strict : Prop) (base : MemBase) : Prop where
  regs : ∀ r ∈ base.regs, S.Meets strict .general r
  frame : ∀ i, base = .frame i → i < S.objects

variable {strict : Prop} {S : Scope}

theorem MemBase.InScope.ofReg {r : Reg} (h : S.Meets strict .general r) : (MemBase.reg r).InScope S strict :=
  ⟨by simpa [MemBase.regs] using h, by simp⟩

theorem MemBase.InScope.ofFrame {i : Nat} (h : i < S.objects) : (MemBase.frame i).InScope S strict :=
  ⟨by simp [MemBase.regs], fun _ hj => MemBase.frame.inj hj ▸ h⟩

def FMemBase.InScope (S : Scope) : FMemBase → Prop
  | reg r => S.class? r = some .gprLow
  | symbol _ => True

namespace Pseudo.InScope

variable {S : Scope} {strict : Prop} {r : Reg}

private theorem meets_access {bank : StorageClass} (hr : S.Meets strict bank r) {rs : List Reg}
    (hrs : ∀ q ∈ rs, S.Meets strict .general q) :
    ∀ p ∈ (r, bank) :: rs.map (·, StorageClass.general), S.Meets strict p.2 p.1 := by
  simpa using ⟨hr, hrs⟩

variable {base : FMemBase} {offset : Word} {prec : Precision} {width : Width}

theorem load {ext : Ir.Extension} {base : MemBase} (hr : S.Meets strict .general r) (hbase : base.InScope S strict) :
    (Pseudo.load r width ext base offset).InScope S strict := by
  refine of_demands rfl (meets_access hr hbase.regs) (fun i hi => ?_) (by simp) (by simp [floatBase?])
  cases base with
  | frame index =>
    cases hi
    exact hbase.frame i rfl
  | _ => cases hi

theorem store {base : MemBase} (hr : S.Meets strict .general r) (hbase : base.InScope S strict) :
    (Pseudo.store r width base offset).InScope S strict := by
  refine of_demands rfl (meets_access hr hbase.regs) (fun i hi => ?_) (by simp) (by simp [floatBase?])
  cases base with
  | frame index =>
    cases hi
    exact hbase.frame i rfl
  | _ => cases hi

private theorem meets_floatBase (h : base.InScope S) : ∀ q ∈ base.regs, S.Meets strict .general q := by
  cases base with
  | reg r =>
    have hr : S.Meets strict .general r := Scope.meets_of_class? h rfl
    simpa [FMemBase.regs] using hr
  | symbol s => simp [FMemBase.regs]

theorem fload (hr : S.Meets strict .floatingPoint r) (hbase : base.InScope S) :
    (Pseudo.fload r prec base).InScope S strict := by
  refine of_demands rfl (meets_access hr (meets_floatBase hbase)) (by simp [frameRef?]) (by simp) fun q hq => ?_
  cases base with
  | reg r =>
    cases hq
    exact hbase
  | symbol s => cases hq

theorem fstore (hr : S.Meets strict .floatingPoint r) (hbase : base.InScope S) :
    (Pseudo.fstore r prec base).InScope S strict := by
  refine of_demands rfl (meets_access hr (meets_floatBase hbase)) (by simp [frameRef?]) (by simp) fun q hq => ?_
  cases base with
  | reg r =>
    cases hq
    exact hbase
  | symbol s => cases hq

theorem frameAddr {index : Nat} (hr : S.Meets strict .general r) (hi : index < S.objects) :
    (Pseudo.frameAddr r index offset).InScope S strict :=
  of_demands rfl (by simpa using hr) (fun i h => by cases h; exact hi) (by simp) (by simp [floatBase?])

theorem loadAddr {target : AddrTarget} (hr : S.Meets strict .general r) (ht : S.Names target) :
    (Pseudo.loadAddr r target).InScope S strict :=
  of_demands rfl (by simpa using hr) (by simp [frameRef?]) (fun d t h => by cases h; exact ht)
    (by simp [floatBase?])

end Pseudo.InScope

end DirectPage
