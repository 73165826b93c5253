import DirectPage.Double

/-! Decimal text of doubles: the fewest digits that read back, without exponent. -/
namespace DirectPage.Double

/-- A positive number `mantissa * 2 ^ exponent` with what is needed to tell which decimals
read back as it. -/
structure Binary where
  mantissa : Nat
  exponent : Int
  /-- The neighbour below is half as far away as the one above. -/
  narrowBelow : Bool

def binary (x : Double) : Binary :=
  let raw := x.abs.bits.toNat
  let fraction := raw % 0x10000000000000
  let biased := raw / 0x10000000000000
  if biased = 0 then ⟨fraction, -1074, false⟩
  else ⟨fraction + 0x10000000000000, (biased : Int) - 1075, fraction = 0 && biased > 1⟩

/-- A number and the ends of an interval around it, over one denominator. -/
structure Interval where
  value : Nat
  low : Nat
  high : Nat
  denominator : Nat

/-- The interval of reals that read back as the number. -/
def Binary.interval (b : Binary) : Interval :=
  let up := 1 <<< b.exponent.toNat
  let down := 1 <<< (-b.exponent).toNat
  { value := 4 * b.mantissa * up
    low := (4 * b.mantissa - (if b.narrowBelow then 1 else 2)) * up
    high := (4 * b.mantissa + 2) * up
    denominator := 4 * down }

def tens (exponent : Int) : Nat := Nat.pow 10 exponent.toNat

/-- Whether `digits * 10 ^ scale` reads back as the number. The ends count when the
mantissa is even. -/
def Interval.holds (i : Interval) (even : Bool) (digits : Nat) (scale : Int) : Bool :=
  let lhs := digits * tens scale * i.denominator
  let low := i.low * tens (-scale)
  let high := i.high * tens (-scale)
  if even then low ≤ lhs && lhs ≤ high else low < lhs && lhs < high

/-- The neighbours of the number on the grid of multiples of `10 ^ scale`, the nearer
first and the upper one on a tie, that read back. -/
def Interval.onGrid? (i : Interval) (even : Bool) (scale : Int) : Option Nat :=
  let num := i.value * tens (-scale)
  let den := i.denominator * tens scale
  let below := num / den
  let rest := num % den
  let (first, second) := if 2 * rest < den then (below, below + 1) else (below + 1, below)
  if i.holds even first scale then some first
  else if i.holds even second scale then some second
  else none

def Interval.search (i : Interval) (even : Bool) : Nat → Int → Nat × Int
  | 0, scale => (i.value * tens (-scale) / (i.denominator * tens scale), scale)
  | steps + 1, scale =>
    match i.onGrid? even scale with
    | some digits => (digits, scale)
    | none => i.search even steps (scale - 1)

def magnitude (num den : Nat) : Int :=
  if den ≤ num then (Nat.toDigits 10 (num / den)).length
  else 1 - (Nat.toDigits 10 (den / num)).length

/-- Digits and scale of the shortest decimal that reads back, the nearest one of those. -/
def shortest (x : Double) : Nat × Int :=
  let b := x.binary
  let i := b.interval
  i.search (b.mantissa % 2 = 0) 20 (magnitude i.value i.denominator)

def positional (digits : Nat) (scale : Int) : String :=
  if 0 ≤ scale then toString digits ++ String.ofList (List.replicate scale.toNat '0')
  else
    let places := (-scale).toNat
    let cs := (toString digits).toList
    let padded := List.replicate (places + 1 - cs.length) '0' ++ cs
    let whole := padded.take (padded.length - places)
    let part := ((padded.drop (padded.length - places)).reverse.dropWhile (· == '0')).reverse
    if part.isEmpty then String.ofList whole
    else String.ofList whole ++ "." ++ String.ofList part

/-- Decimal text without exponent; whole numbers have no point. -/
def text (x : Double) : String :=
  let sign := if x.bits ≥ 0x8000000000000000 then "-" else ""
  let size := x.abs.bits
  if x.isNaN then "NaN"
  else if size = 0x7ff0000000000000 then sign ++ "inf"
  else if size = 0 then sign ++ "0"
  else
    let (digits, scale) := x.shortest
    sign ++ positional digits scale

end DirectPage.Double
