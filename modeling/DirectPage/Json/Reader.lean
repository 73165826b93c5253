import DirectPage.Json
import DirectPage.Text.Number

/-! Reading JSON text one character at a time.

Text has to be well formed throughout. Parts without a value (`Json.unreadable`) are kept, so
that whoever reads the tree may pass over them; `Json.parse?` refuses them. -/
namespace DirectPage.Json

inductive Scan
  /-- Between tokens. -/
  | idle
  /-- Inside quotes; code points and halves of pairs so far, last first. -/
  | text (done : List Nat)
  /-- Behind a backslash. -/
  | escape (done : List Nat)
  /-- Behind `\u`: the number of digits so far, and their value. -/
  | unicode (done : List Nat) (count value : Nat)
  /-- Inside a number; characters so far, last first. -/
  | number (done : List Char)
  | word (done : List Char)

/-- A container that is still open, with its parts so far, last first. An object is sound as
long as its names can be read. -/
inductive Open
  | arr (items : List Json)
  | obj (members : List (String × Json)) (key : Option String) (sound : Bool)

inductive Expect
  | value
  | valueOrEnd
  | key
  | keyOrEnd
  | colon
  | separator
  deriving DecidableEq

structure Reader where
  scan : Scan := .idle
  frames : List Open := []
  /-- How many containers are open. -/
  depth : Nat := 0
  expect : Expect := .value
  result : Option Json := none

def maxDepth : Nat := 127

def isBlank (c : Char) : Bool := c == ' ' || c == '\t' || c == '\n' || c == '\r'

def isNumberChar (c : Char) : Bool :=
  c.isDigit || c == '-' || c == '+' || c == '.' || c == 'e' || c == 'E'

/-- As many leading digits as fit into 64 bits behind those of `n`, and how many they are. -/
def leading (n : Nat) : List Char → Nat × Nat
  | [] => (n, 0)
  | c :: rest =>
    let next := n * 10 + (c.toNat - '0'.toNat)
    if next < 18446744073709551616 then
      let (m, count) := leading next rest
      (m, count + 1)
    else (n, 0)

/-- A power of ten up to the largest that is a double. -/
def powerOfTen (k : Nat) : Float := Float.ofScientific 1 false k

/-- Digits times a power of ten, rounded at every step: digits become a double, which is then
multiplied or divided, twice if one power is not enough. None when it is too large. -/
def scaled? (digits : Nat) (exponent : Int) : Option Float :=
  let x := (UInt64.ofNat digits).toFloat
  let k := exponent.natAbs
  if digits = 0 then some x
  else if 0 ≤ exponent then
    if k ≤ 308 then
      let y := x * powerOfTen k
      if y.isInf then none else some y
    else none
  else if k ≤ 308 then some (x / powerOfTen k)
  else if k ≤ 616 then some (x / powerOfTen 308 / powerOfTen (k - 308))
  else some 0

def signed (negative : Bool) (x : Float) : Double :=
  if negative then (Double.ofFloat x).neg else Double.ofFloat x

def exponent? (cs : List Char) : Option Int :=
  match cs with
  | [] => some 0
  | mark :: rest =>
    if mark = 'e' ∨ mark = 'E' then
      let (negative, digits) := match rest with
        | '-' :: ds => (true, ds)
        | '+' :: ds => (false, ds)
        | ds => (false, ds)
      if digits.isEmpty || !digits.all Char.isDigit then none
      else (Text.digits? 10 digits).map fun n => if negative then -(n : Int) else n
    else none

/-- The digits behind a point and what follows them; a point needs a digit. -/
def fraction? : List Char → Option (List Char × List Char)
  | '.' :: rest =>
    let digits := rest.takeWhile Char.isDigit
    if digits.isEmpty then none else some (digits, rest.dropWhile Char.isDigit)
  | rest => some ([], rest)

/-- The number a run of characters spells. Digits that no longer fit count as zeros. -/
def numberOf? (cs : List Char) : Option Json := do
  let (negative, body) := match cs with
    | '-' :: rest => (true, rest)
    | rest => (false, rest)
  let whole := body.takeWhile Char.isDigit
  guard (!whole.isEmpty && (whole.length == 1 || whole.head? != some '0'))
  let (fraction, tail) ← fraction? (body.dropWhile Char.isDigit)
  let e ← exponent? tail
  let (n, count) := leading 0 whole
  let limit := if negative then 9223372036854775808 else 18446744073709551615
  if fraction.isEmpty && tail.isEmpty && count == whole.length && n ≤ limit
      && !(negative && n == 0) then
    return .int (if negative then -(n : Int) else n)
  let (digits, places) := leading n fraction
  let exponent : Int := (whole.length - count : Nat) - (places : Int) + e
  return (scaled? digits exponent).elim .unreadable fun x => .real (signed negative x)

def isHighHalf (u : Nat) : Bool := 0xd800 ≤ u && u ≤ 0xdbff

def isLowHalf (u : Nat) : Bool := 0xdc00 ≤ u && u ≤ 0xdfff

/-- Characters from code points and halves of pairs, last first, in front of `tail`; none when a
half stands alone. -/
def charsOf? (tail : List Char) : List Nat → Option (List Char)
  | [] => some tail
  | [u] => if isLowHalf u || isHighHalf u then none else some (Char.ofNat u :: tail)
  | u :: v :: rest =>
    if isLowHalf u then
      if isHighHalf v then
        charsOf? (Char.ofNat (0x10000 + (v - 0xd800) * 1024 + (u - 0xdc00)) :: tail) rest
      else none
    else if isHighHalf u then none
    else charsOf? (Char.ofNat u :: tail) (v :: rest)

def textOf? (units : List Nat) : Option String := (charsOf? [] units).map String.ofList

def wordOf? (cs : List Char) : Option Json :=
  if cs = ['n', 'u', 'l', 'l'] then some .null
  else if cs = ['t', 'r', 'u', 'e'] then some (.bool true)
  else if cs = ['f', 'a', 'l', 's', 'e'] then some (.bool false)
  else none

namespace Reader

def accept (r : Reader) (j : Json) : Option Reader :=
  if r.expect = .value ∨ r.expect = .valueOrEnd then
    match r.frames with
    | [] => some { r with scan := .idle, expect := .separator, result := some j }
    | .arr items :: rest =>
      some { r with scan := .idle, expect := .separator, frames := .arr (j :: items) :: rest }
    | .obj members (some k) sound :: rest =>
      some { r with
        scan := .idle, expect := .separator
        frames := .obj ((k, j) :: members) none sound :: rest }
    | .obj _ none _ :: _ => none
  else none

/-- Put a finished string where it belongs: as a name or as a value. -/
def acceptText (r : Reader) (s : Option String) : Option Reader :=
  if r.expect = .key ∨ r.expect = .keyOrEnd then
    match r.frames with
    | .obj members _ sound :: rest =>
      some { r with
        scan := .idle, expect := .colon
        frames := .obj members (some (s.getD "")) (sound && s.isSome) :: rest }
    | _ => none
  else r.accept (s.elim .unreadable .str)

def openWith (r : Reader) (frame : Open) (expect : Expect) : Option Reader :=
  if r.expect = .value ∨ r.expect = .valueOrEnd then
    some { r with frames := frame :: r.frames, depth := r.depth + 1, expect := expect }
  else none

def leave (r : Reader) (rest : List Open) (sound : Bool) (j : Json) : Option Reader :=
  { r with frames := rest, depth := r.depth - 1, expect := .value }.accept
    (if sound && r.depth ≤ maxDepth then j else .unreadable)

def close (r : Reader) : Option Reader :=
  match r.frames with
  | .arr items :: rest =>
    if r.expect = .separator ∨ r.expect = .valueOrEnd then r.leave rest true (.arr items.reverse)
    else none
  | .obj members _ sound :: rest =>
    if r.expect = .separator ∨ r.expect = .keyOrEnd then
      r.leave rest sound (.obj members.reverse)
    else none
  | [] => none

def comma (r : Reader) : Option Reader :=
  if r.expect = .separator then
    match r.frames with
    | .arr _ :: _ => some { r with expect := .value }
    | .obj .. :: _ => some { r with expect := .key }
    | [] => none
  else none

def idle (r : Reader) (c : Char) : Option Reader :=
  if isBlank c then some r
  else if c = '"' then some { r with scan := .text [] }
  else if c = '\x7b' then r.openWith (.obj [] none true) .keyOrEnd
  else if c = '[' then r.openWith (.arr []) .valueOrEnd
  else if c = '\x7d' then
    match r.frames with
    | .obj .. :: _ => r.close
    | _ => none
  else if c = ']' then
    match r.frames with
    | .arr _ :: _ => r.close
    | _ => none
  else if c = ',' then r.comma
  else if c = ':' then
    if r.expect = .colon then some { r with expect := .value } else none
  else if c = '-' || c.isDigit then some { r with scan := .number [c] }
  else if c = 't' || c = 'f' || c = 'n' then some { r with scan := .word [c] }
  else none

def unescape? (c : Char) : Option Char :=
  if c = '"' ∨ c = '\\' ∨ c = '/' then some c
  else if c = 'b' then some (Char.ofNat 8)
  else if c = 'f' then some (Char.ofNat 12)
  else if c = 'n' then some '\n'
  else if c = 'r' then some '\r'
  else if c = 't' then some '\t'
  else none

/-- Finish a number or a word at a character that does not belong to it. -/
def finish (r : Reader) : Option Reader :=
  match r.scan with
  | .number done => (numberOf? done.reverse).bind r.accept
  | .word done => (wordOf? done.reverse).bind r.accept
  | _ => some r

def feed (r : Reader) (c : Char) : Option Reader :=
  match r.scan with
  | .idle => r.idle c
  | .text done =>
    if c = '"' then r.acceptText (textOf? done)
    else if c = '\\' then some { r with scan := .escape done }
    else if c.toNat < 32 then none
    else some { r with scan := .text (c.toNat :: done) }
  | .escape done =>
    if c = 'u' then some { r with scan := .unicode done 0 0 }
    else (unescape? c).map fun e => { r with scan := .text (e.toNat :: done) }
  | .unicode done count value =>
    (Text.digit? c).map fun d =>
      if count = 3 then { r with scan := .text ((value * 16 + d) :: done) }
      else { r with scan := .unicode done (count + 1) (value * 16 + d) }
  | .number done =>
    if isNumberChar c then some { r with scan := .number (c :: done) }
    else r.finish.bind fun r => r.idle c
  | .word done =>
    if c.isAlpha then some { r with scan := .word (c :: done) }
    else r.finish.bind fun r => r.idle c

def value? (r : Reader) : Option Json :=
  match r.finish with
  | some { scan := .idle, frames := [], result := some j, .. } => some j
  | _ => none

end Reader

/-- The value a text spells, possibly with unreadable parts; blanks may stand around it. -/
def read? (s : String) : Option Json :=
  (s.foldl (fun r c => r.bind fun r => r.feed c) (some ({} : Reader))).bind Reader.value?

/-- The value a text spells, when all of it can be read. -/
def parse? (s : String) : Option Json := (read? s).filter isReadable

mutual

def lastWins : Json → Json
  | .arr items => .arr (lastWinsItems items)
  | .obj members => .obj (lastWinsMembers members)
  | j => j

def lastWinsItems : List Json → List Json
  | [] => []
  | j :: rest => lastWins j :: lastWinsItems rest

def lastWinsMembers : List (String × Json) → List (String × Json)
  | [] => []
  | (k, j) :: rest =>
    if rest.any fun p => p.1 == k then lastWinsMembers rest
    else (k, lastWins j) :: lastWinsMembers rest

end

end DirectPage.Json
