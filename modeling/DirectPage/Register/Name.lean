import DirectPage.Error
import DirectPage.Text.Blank
import DirectPage.Text.Number

/-! Reading register names. -/
namespace DirectPage.Register

def aliases : List (String × Register) :=
  [("GP", general 28), ("FP", general 29), ("LR", general 30)]

/-- A number below `limit` in its shortest spelling. -/
def shortNumber? (limit : Nat) (cs : List Char) : Option UInt8 :=
  (Text.unsigned? 10 256 cs).bind fun n =>
    if n < limit ∧ cs = (toString n).toList then some (UInt8.ofNat n) else none

def ofUpper? (cs : List Char) : Option Register :=
  match architectural.find? fun p => p.2.toList == cs with
  | some (r, _) => some r
  | none =>
    match aliases.find? fun p => p.1.toList == cs with
    | some (_, r) => some r
    | none =>
      match cs with
      | 'R' :: rest => (shortNumber? 64 rest).map general
      | 'F' :: rest => (shortNumber? 16 rest).map float
      | _ => none

/-- The register a name stands for: blanks around it and the case of its letters do
not matter. -/
def parse (s : String) : Checked Register :=
  orFail (.unknownRegister s) (ofUpper? (Text.upper (Text.trimmed s.toList)))

/-- The registers that programs may name; only the stack pointer is one. -/
def byName (name : String) : Checked Register :=
  if name = "sp" then .ok sp else fail (.invalidInput (.registerName name))

end DirectPage.Register
