import DirectPage.Proofs.OperationCode
import DirectPage.Proofs.SelectedFunction
import DirectPage.Simulator.Run

/-! A call that passes words: each is in its register or on the stack when the function is entered. -/
namespace DirectPage.Machine

open Selection (wordLoc)

def argAddress (k : Nat) : Nat :=
  if k < intArgRegs.length then 4 * k else stackTop.toNat + returnAddressSize + wordSize * (k - intArgRegs.length)

variable {k : Nat} {args : List Word}

theorem wordLoc_of_lt (hk : k < intArgRegs.length) :
    ∃ n : UInt8, n < 64 ∧ n.toNat = k ∧ wordLoc k = .reg (.general n) := by
  have hall : ∀ k < intArgRegs.length, (UInt8.ofNat k) < 64 ∧ (UInt8.ofNat k).toNat = k ∧
      wordLoc k = .reg (.general (UInt8.ofNat k)) := by decide
  exact ⟨_, hall k hk⟩

theorem wordLoc_of_ge (hk : intArgRegs.length ≤ k) :
    wordLoc k = .stack (wordSize * (k - intArgRegs.length)) wordSize := by
  rw [wordLoc, List.getElem?_eq_none hk]

/-- An argument is written to its own place. -/
private theorem passArg_word (hk : argAddress k + 4 ≤ memorySize) (m : Machine) (w : Word) :
    m.passArg (.i32 w) (wordLoc k) = .ok { m with memory := m.memory.setWord (argAddress k) w } := by
  rw [argAddress] at hk ⊢
  split at hk
  · next hlt =>
    obtain ⟨n, hn, rfl, hloc⟩ := wordLoc_of_lt hlt
    rw [hloc, if_pos hlt, ← UInt8.toNat_mul_four hn, ← m.writeWord_slot]
    change (Register.slot (.general n) >>= fun slot => m.writeBytes (slotAddr slot) w.bytes) = _
    rw [show Register.slot (.general n) = .ok (n * 4) from Reg.slot_general hn]
    rfl
  · next hge =>
    have hadd : (stackTop + BitVec.ofNat 32 (returnAddressSize + wordSize * (k - intArgRegs.length))).toNat =
        stackTop.toNat + returnAddressSize + wordSize * (k - intArgRegs.length) := by
      rw [memorySize] at hk
      rw [BitVec.toNat_add, BitVec.toNat_ofNat]
      omega
    rw [wordLoc_of_ge (by omega), if_neg hge, ← hadd]
    exact m.writeWord_of_le (by rw [hadd]; exact hk) w

private theorem argAddress_apart {j : Nat} (h : j ≠ k) :
    argAddress j + 4 ≤ argAddress k ∨ argAddress k + 4 ≤ argAddress j := by
  have hlen : intArgRegs.length = 8 := rfl
  have htop : stackTop.toNat = 0xf0000 := rfl
  have hword : wordSize = 4 := rfl
  simp only [argAddress, hlen, htop, hword]
  split <;> split <;> omega

/-- Arguments from number `k` on are written to their places, and nothing else is. -/
private theorem passArgs_words (hfits : ∀ j < k + args.length, argAddress j + 4 ≤ memorySize) (m : Machine) :
    ∃ mem, m.passArgs ((args.map Arg.i32).zip ((List.range' k args.length).map wordLoc)) =
        ({ m with memory := mem }, .ok ()) ∧
      (∀ (j : Nat) w, args[j]? = some w → mem.word (argAddress (k + j)) = w) ∧
      ∀ j < k, mem.word (argAddress j) = m.memory.word (argAddress j) := by
  induction args generalizing k m with
  | nil => exact ⟨m.memory, rfl, by simp, fun _ _ => rfl⟩
  | cons w args ih =>
    rw [List.length_cons] at hfits
    obtain ⟨mem, hpass, hargs, hkept⟩ := ih (k := k + 1) (fun j hj => hfits j (by omega))
      { m with memory := m.memory.setWord (argAddress k) w }
    have hk := hfits k (by omega)
    refine ⟨mem, ?_, fun j x hj => ?_, fun j hj => ?_⟩
    · rw [List.length_cons, List.range'_succ, List.map_cons, List.map_cons, List.zip_cons_cons, passArgs,
        passArg_word hk]
      exact hpass
    · cases j with
      | zero =>
        cases hj
        rw [Nat.add_zero, hkept k (Nat.lt_succ_self k)]
        exact Memory.word_setWord_self hk w
      | succ j =>
        rw [show k + (j + 1) = k + 1 + j by omega]
        exact hargs j x hj
    · rw [hkept j (by omega)]
      exact Memory.word_setWord_ne hk (hfits j (by omega)) (argAddress_apart (by omega)) w

structure Entered (m : Machine) (entry : Word) (args : List Word) (m' : Machine) : Prop where
  pc : m'.pc = entry
  sp : m'.sp.toNat + 4 = stackTop.toNat
  code : m'.code = m.code
  symbols : m'.symbols = m.symbols
  ret : m'.memory.word stackTop.toNat = returnSentinel
  args : ∀ (k : Nat) w, args[k]? = some w → m'.memory.word (argAddress k) = w

theorem call_words {m : Machine} {name : String} {entry : Word} (hs : m.symbols.lookup name = some entry)
    (hfits : stackTop.toNat + returnAddressSize + wordSize * (args.length - intArgRegs.length) ≤ memorySize) :
    ∃ m', m.Entered entry args m' ∧ m.call name (args.map .i32) =
      match runFrom stepLimit 0 m' with
      | (m, .error e) => (m, .error e)
      | (m, .ok steps) => (m, .ok (m.returned steps)) := by
  have hplace : ∀ j < 0 + args.length, argAddress j + 4 ≤ memorySize := by
    intro j hj
    simp only [argAddress, returnAddressSize, wordSize, memorySize, show intArgRegs.length = 8 from rfl,
      show stackTop.toNat = 0xf0000 from rfl] at hfits ⊢
    split <;> omega
  have htop : stackTop.toNat + 4 ≤ memorySize := by decide
  obtain ⟨mem, hpass, hargs, -⟩ := passArgs_words hplace { m with sp := stackTop }
  obtain ⟨plan, hplan, hlocs⟩ : ∃ plan, planArguments ((args.map Arg.i32).map Arg.ty) (args.map Arg.i32).length =
      .ok plan ∧ plan.locs = (List.range' 0 args.length).map wordLoc := by
    have hi32 : ∀ ty ∈ (args.map Arg.i32).map Arg.ty, Selection.isWord ty = true := by
      simp only [List.map_map, List.mem_map]
      rintro ty ⟨w, -, rfl⟩
      rfl
    have hwords := Selection.assignArguments_words hi32
    simp only [List.length_map] at hwords ⊢
    refine ⟨_, planArguments_eq_ok.mpr ⟨rfl, ?_⟩, ?_⟩
    · rw [hwords]
      simp only [returnAddressSize, wordSize, memorySize, show intArgRegs.length = 8 from rfl,
        show stackTop.toNat = 0xf0000 from rfl] at hfits ⊢
      omega
    · rw [hwords, List.range_eq_range']
  have henter : ({ m with sp := stackTop, memory := mem } : Machine).enter entry =
      .ok { m with memory := mem.setWord stackTop.toNat returnSentinel, sp := stackTop - 4#32, pc := entry } := by
    rw [enter, push, writeWord_of_le _ htop]
    rfl
  refine ⟨{ m with memory := mem.setWord stackTop.toNat returnSentinel, sp := stackTop - 4#32, pc := entry },
    ⟨rfl, rfl, rfl, rfl, Memory.word_setWord_self htop _, fun k w hk => ?_⟩, ?_⟩
  · have hlt := (List.getElem?_eq_some_iff.mp hk).1
    have hargk := hargs k w hk
    rw [Nat.zero_add] at hargk
    rw [← hargk]
    refine Memory.word_setWord_ne htop (hplace k (by omega)) ?_ _
    simp only [argAddress, returnAddressSize, show intArgRegs.length = 8 from rfl,
      show stackTop.toNat = 0xf0000 from rfl]
    split <;> omega
  · rw [call, hs]
    dsimp only
    rw [hplan]
    dsimp only
    rw [hlocs, hpass]
    dsimp only
    rewrite [henter]
    rfl

end DirectPage.Machine
