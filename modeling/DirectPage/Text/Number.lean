/-! Numbers written in digits of a base. -/
namespace DirectPage.Text

def digit? (c : Char) : Option Nat :=
  if '0' ≤ c ∧ c ≤ '9' then some (c.toNat - '0'.toNat)
  else if 'a' ≤ c ∧ c ≤ 'f' then some (c.toNat - 'a'.toNat + 10)
  else if 'A' ≤ c ∧ c ≤ 'F' then some (c.toNat - 'A'.toNat + 10)
  else none

def digitIn? (base : Nat) (c : Char) : Option Nat :=
  (digit? c).bind fun d => if d < base then some d else none

def digits? (base : Nat) (cs : List Char) : Option Nat :=
  cs.foldl (fun acc c => acc.bind fun n => (digitIn? base c).map fun d => n * base + d) (some 0)

/-- An unsigned number below `limit`: at least one digit, and one `+` may stand in front. -/
def unsigned? (base limit : Nat) (cs : List Char) : Option Nat :=
  let body := match cs with
    | '+' :: rest => rest
    | _ => cs
  if body.isEmpty then none
  else (digits? base body).bind fun n => if n < limit then some n else none

def bytesOfHex? : List Char → Option (List UInt8)
  | [] => some []
  | [_] => none
  | h :: l :: rest => do
    let hi ← digit? h
    let lo ← digit? l
    let tail ← bytesOfHex? rest
    return UInt8.ofNat (hi * 16 + lo) :: tail

def hexDigit (n : Nat) : Char := Nat.digitChar (n % 16)

def hexOfBytes (bs : List UInt8) : String :=
  String.ofList (bs.flatMap fun b => [hexDigit (b.toNat / 16), hexDigit b.toNat])

def fixedHex (width n : Nat) : String :=
  String.ofList ((List.range width).reverse.map fun i => hexDigit (n >>> (4 * i)))

end DirectPage.Text
