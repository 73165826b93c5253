import DirectPage.Compiler
import DirectPage.Text.Blank
import DirectPage.Text.Number

/-! Reading the arguments of the command line. -/
namespace DirectPage.CommandLine

structure Invocation where
  input : String
  output : String
  /-- Where to write the symbol and relocation tables. -/
  relocs : Option String := none
  /-- Where to link the section, if that is wanted. -/
  base : Option Word := none
  /-- Addresses of external symbols, in the order given. -/
  defines : List (String × Word) := []
  options : Options := {}
  deriving DecidableEq, Repr

inductive Refusal
  /-- An argument is missing, unknown, superfluous or repeated. -/
  | usage
  /-- The text of a value cannot be read. -/
  | invalidValue (value option reason : String)
  /-- The arguments ask for help. -/
  | help
  deriving DecidableEq, Repr

def Refusal.text : Refusal → String
  | usage => "error: the arguments do not match the usage"
  | invalidValue value option reason =>
    "error: invalid value '" ++ value ++ "' for '" ++ option ++ "': " ++ reason
  | help => ""

/-- A decimal address, or a hexadecimal one behind `0x`. -/
def parseAddr (s : String) : Except String Word :=
  let cs := Text.trimmed s.toList
  let parsed := match cs with
    | '0' :: 'x' :: rest | '0' :: 'X' :: rest => Text.unsigned? 16 4294967296 rest
    | _ => Text.unsigned? 10 4294967296 cs
  match parsed with
  | some n => .ok (BitVec.ofNat 32 n)
  | none => .error ("invalid address '" ++ String.ofList cs ++ "'")

def parseDefine (s : String) : Except String (String × Word) :=
  let cs := s.toList
  match cs.dropWhile (· ≠ '=') with
  | [] => .error ("invalid definition '" ++ s ++ "', expected 'name=addr'")
  | _ :: addr =>
    let name := Text.trimmed (cs.takeWhile (· ≠ '='))
    if name.isEmpty then .error ("invalid definition '" ++ s ++ "': empty symbol name")
    else (parseAddr (String.ofList addr)).map fun a => (String.ofList name, a)

inductive ValueOption
  | output | relocs | base | define
  deriving DecidableEq, Repr

inductive FlagOption
  | noPeephole | noRelax | keepJumps
  deriving DecidableEq, Repr

structure Draft where
  input : Option String := none
  output : Option String := none
  relocs : Option String := none
  base : Option Word := none
  defines : List (String × Word) := []
  noPeephole : Bool := false
  noRelax : Bool := false
  keepJumps : Bool := false
  /-- An option whose value is still to come, or to be checked. -/
  pending : Option (ValueOption × Option String) := none
  /-- Whether all further arguments are plain. -/
  plain : Bool := false

def Draft.once (before : Option String) (value : String) : Except Refusal (Option String) :=
  if before.isSome || value.isEmpty then .error .usage else .ok (some value)

def Draft.accept (d : Draft) (o : ValueOption) (value : String) : Except Refusal Draft := do
  match o with
  | .output => return { d with output := ← once d.output value }
  | .relocs => return { d with relocs := ← once d.relocs value }
  | .base =>
    if d.base.isSome then throw .usage
    match parseAddr value with
    | .ok a => return { d with base := some a }
    | .error reason => throw (.invalidValue value "--base <BASE>" reason)
  | .define =>
    match parseDefine value with
    | .ok pair => return { d with defines := d.defines ++ [pair] }
    | .error reason => throw (.invalidValue value "--define <DEFINES>" reason)

/-- Check the value of the last option, if it is not checked yet. -/
def Draft.settle (d : Draft) : Except Refusal Draft :=
  match d.pending with
  | none => .ok d
  | some (_, none) => .error .usage
  | some (o, some value) => { d with pending := none }.accept o value

def Draft.option (d : Draft) (o : ValueOption) (value : Option String) : Except Refusal Draft := do
  let d ← d.settle
  match value with
  | some v => d.accept o v
  | none => return { d with pending := some (o, none) }

def Draft.flag (d : Draft) (o : FlagOption) (value : Option String) : Except Refusal Draft := do
  if value.isSome then throw .usage
  let d ← d.settle
  match o with
  | .noPeephole => if d.noPeephole then throw .usage else return { d with noPeephole := true }
  | .noRelax => if d.noRelax then throw .usage else return { d with noRelax := true }
  | .keepJumps => if d.keepJumps then throw .usage else return { d with keepJumps := true }

/-- Help is given once the arguments so far are in order. -/
def Draft.help (d : Draft) : Except Refusal Draft := do
  let _ ← d.settle
  throw .help

def Draft.plainArg (d : Draft) (arg : String) : Except Refusal Draft := do
  if d.input.isSome then throw .usage
  let d ← d.settle
  return { d with input := ← once none arg }

def Draft.long (d : Draft) (name : String) (value : Option String) : Except Refusal Draft :=
  match name with
  | "output" => d.option .output value
  | "emit-relocs" => d.option .relocs value
  | "base" => d.option .base value
  | "define" => d.option .define value
  | "no-peephole" => d.flag .noPeephole value
  | "no-relax" => d.flag .noRelax value
  | "keep-fallthrough-jumps" => d.flag .keepJumps value
  | "help" => if value.isSome then .error .usage else d.help
  | _ => .error .usage

def attached : List Char → Option String
  | [] => none
  | '=' :: rest => some (String.ofList rest)
  | rest => some (String.ofList rest)

def Draft.arg (d : Draft) (s : String) : Except Refusal Draft :=
  if d.plain then d.plainArg s
  else
    match s.toList with
    | ['-', '-'] => .ok { d with plain := true }
    | '-' :: '-' :: rest =>
      let name := String.ofList (rest.takeWhile (· ≠ '='))
      match rest.dropWhile (· ≠ '=') with
      | [] => d.long name none
      | _ :: value => d.long name (some (String.ofList value))
    | '-' :: 'o' :: rest => d.option .output (attached rest)
    | '-' :: 'D' :: rest => d.option .define (attached rest)
    | '-' :: 'h' :: _ => d.help
    | '-' :: _ :: _ => .error .usage
    | _ =>
      match d.pending with
      | some (o, none) => .ok { d with pending := some (o, some s) }
      | _ => d.plainArg s

def Draft.finish (d : Draft) : Except Refusal Invocation := do
  let d ← d.settle
  match d.input, d.output with
  | some input, some output =>
    return {
      input, output
      relocs := d.relocs
      base := d.base
      defines := d.defines
      options := ⟨!d.noPeephole, !d.noRelax, !d.keepJumps⟩ }
  | _, _ => throw .usage

def parse : List String → Except Refusal Invocation
  | "compile" :: args => do (← args.foldlM Draft.arg {}).finish
  | ["help"] | ["help", "compile"] | ["help", "help"] | "--help" :: _ => .error .help
  | arg :: _ => if arg.startsWith "-h" then .error .help else .error .usage
  | [] => .error .usage

end DirectPage.CommandLine
