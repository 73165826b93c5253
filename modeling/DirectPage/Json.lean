import DirectPage.Double.Shortest

/-! JSON values, their compact and indented text, and access to their parts. -/
namespace DirectPage

/-- A JSON value. Numbers without fraction and exponent are integers; members keep their
order, and a name may occur twice. -/
inductive Json
  | null
  | bool (b : Bool)
  | int (n : Int)
  | real (x : Double)
  | str (s : String)
  | arr (items : List Json)
  | obj (members : List (String × Json))
  /-- Well-formed text that has no value here: a number beyond all doubles, half of a
  surrogate pair, or a container nested too deep. It is an error only where it is read. -/
  | unreadable
  deriving Inhabited

namespace Json

def escaped (c : Char) : List Char :=
  if c = '"' then ['\\', '"']
  else if c = '\\' then ['\\', '\\']
  else if c = '\n' then ['\\', 'n']
  else if c = '\r' then ['\\', 'r']
  else if c = '\t' then ['\\', 't']
  else if c.toNat = 8 then ['\\', 'b']
  else if c.toNat = 12 then ['\\', 'f']
  else if c.toNat < 32 then
    ['\\', 'u', '0', '0', Nat.digitChar (c.toNat / 16), Nat.digitChar (c.toNat % 16)]
  else [c]

def quoted (s : String) : String := "\"" ++ String.ofList (s.toList.flatMap escaped) ++ "\""

mutual

def compact : Json → String
  | null => "null"
  | bool true => "true"
  | bool false => "false"
  | int n => toString n
  | real x => x.text
  | str s => quoted s
  | arr items => "[" ++ ",".intercalate (compactItems items) ++ "]"
  | obj members => "\x7b" ++ ",".intercalate (compactMembers members) ++ "\x7d"
  | unreadable => "null"

def compactItems : List Json → List String
  | [] => []
  | j :: rest => compact j :: compactItems rest

def compactMembers : List (String × Json) → List String
  | [] => []
  | (k, j) :: rest => (quoted k ++ ":" ++ compact j) :: compactMembers rest

end

def newline (depth : Nat) : String := "\n" ++ String.ofList (List.replicate (2 * depth) ' ')

mutual

def indented (depth : Nat) : Json → String
  | null => "null"
  | bool true => "true"
  | bool false => "false"
  | int n => toString n
  | real x => x.text
  | str s => quoted s
  | arr [] => "[]"
  | arr (j :: rest) =>
    "[" ++ newline (depth + 1) ++
      ("," ++ newline (depth + 1)).intercalate
        (indented (depth + 1) j :: indentedItems (depth + 1) rest)
      ++ newline depth ++ "]"
  | obj [] => "\x7b\x7d"
  | obj ((k, j) :: rest) =>
    "\x7b" ++ newline (depth + 1) ++
      ("," ++ newline (depth + 1)).intercalate
        ((quoted k ++ ": " ++ indented (depth + 1) j) :: indentedMembers (depth + 1) rest)
      ++ newline depth ++ "\x7d"
  | unreadable => "null"

def indentedItems (depth : Nat) : List Json → List String
  | [] => []
  | j :: rest => indented depth j :: indentedItems depth rest

def indentedMembers (depth : Nat) : List (String × Json) → List String
  | [] => []
  | (k, j) :: rest => (quoted k ++ ": " ++ indented depth j) :: indentedMembers depth rest

end

mutual

def isReadable : Json → Bool
  | unreadable => false
  | arr items => areReadable items
  | obj members => membersReadable members
  | _ => true

def areReadable : List Json → Bool
  | [] => true
  | j :: rest => isReadable j && areReadable rest

def membersReadable : List (String × Json) → Bool
  | [] => true
  | (_, j) :: rest => isReadable j && membersReadable rest

end

def ofOption {α : Type} (f : α → Json) : Option α → Json
  | none => null
  | some a => f a

def nat (n : Nat) : Json := int n

def list {α : Type} (f : α → Json) (xs : List α) : Json := arr (xs.map f)

def nats (xs : List Nat) : Json := list nat xs

def strs (xs : List String) : Json := list str xs

def bool? : Json → Option Bool
  | bool b => some b
  | _ => none

def str? : Json → Option String
  | str s => some s
  | _ => none

def int? : Json → Option Int
  | int n => some n
  | _ => none

def arr? : Json → Option (List Json)
  | arr items => some items
  | _ => none

def obj? : Json → Option (List (String × Json))
  | obj members => some members
  | _ => none

def between? (lo hi : Int) (j : Json) : Option Int :=
  j.int?.bind fun n => if lo ≤ n ∧ n ≤ hi then some n else none

def below? (limit : Nat) (j : Json) : Option Nat :=
  j.int?.bind fun n => if 0 ≤ n ∧ n < limit then some n.toNat else none

def u32? : Json → Option Nat := below? 4294967296

def u64? : Json → Option Nat := below? 18446744073709551616

/-- A count or a position, not above the largest signed number of 64 bits. -/
def size? : Json → Option Nat := below? 9223372036854775808

def u8? (j : Json) : Option UInt8 := (below? 256 j).map UInt8.ofNat

def word? (j : Json) : Option Word := j.int?.bind Word.ofSigned?

def list? {α : Type} (read : Json → Option α) (j : Json) : Option (List α) :=
  j.arr?.bind fun items => items.mapM read

/-- The value of the last member with a name. -/
def member? (j : Json) (name : String) : Option Json :=
  j.obj?.bind fun members => members.reverse.lookup name

def named? {α : Type} (name : α → String) (all : List α) (j : Json) : Option α :=
  j.str?.bind fun s => all.find? fun a => name a == s

end Json

end DirectPage
