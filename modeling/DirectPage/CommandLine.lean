import DirectPage.CommandLine.Arguments
import DirectPage.Ir.Description
import DirectPage.Json.Reader

/-! The command line: compile a module file to a code section or a linked image. -/
namespace DirectPage.CommandLine

structure Files (m : Type → Type) where
  /-- The text of a file, if it can be read. -/
  read : String → m (Option String)
  /-- Write a file, and say whether that worked. -/
  write : String → List UInt8 → m Bool

inductive Trouble
  | unreadable (path : String)
  | invalidDescription (path : String)
  | noFunctions (path : String)
  | compilation (cause : Error)
  | unwritableRelocs (path : String)
  | linking (base : Word) (cause : Error)
  | unwritableOutput (path : String)
  | abort
  deriving DecidableEq, Repr

namespace Trouble

def text : Trouble → String
  | unreadable path => "Failed to read " ++ path
  | invalidDescription path => path ++ ": invalid function description"
  | noFunctions path => path ++ ": no functions to compile"
  | compilation _ => "Compilation failed"
  | unwritableRelocs path => "Failed to write " ++ path
  | linking base _ => "Failed to link at " ++ hexText base.toNat
  | unwritableOutput path => "Failed to write output to " ++ path
  | abort => "the compiler stopped"

def cause? : Trouble → Option Error
  | compilation cause | linking _ cause => some cause
  | _ => none

end Trouble

def Trouble.ofFailure (wrap : Error → Trouble) : Failure → Trouble
  | .error e => wrap e
  | .abort => .abort

def symbolJson (s : Symbol) : Json :=
  .obj [("name", .str s.name), ("offset", .nat s.offset), ("size", .nat s.size)]

def relocationJson (r : Relocation) : Json :=
  .obj [("offset", .nat r.offset), ("rtype", .str r.rtype.name), ("symbol", .str r.symbol),
    ("addend", .int r.addend)]

def tables (o : Object) : Json :=
  .obj [("symbols", .list symbolJson o.symbols),
    ("relocations", .list relocationJson o.relocations)]

def describedFunctions (path contents : String) : Except Trouble (List Ir.Function) :=
  match (Json.read? contents).bind Ir.Description.module? with
  | none => .error (.invalidDescription path)
  | some [] => .error (.noFunctions path)
  | some fs => .ok fs

def sectionOf (inv : Invocation) (fs : List Ir.Function) : Except Trouble Object :=
  (compileModule fs inv.options).mapError (.ofFailure .compilation)

/-- The bytes to write: the section as it is, or linked. The last definition of a name
counts. -/
def image (inv : Invocation) (o : Object) : Except Trouble (List UInt8) :=
  match inv.base with
  | none => .ok o.code
  | some base => (o.link base inv.defines.reverse).mapError (.ofFailure (.linking base))

def summary (inv : Invocation) (o : Object) (bytes : List UInt8) : String :=
  let relocations := if inv.base.isSome then 0 else o.relocations.length
  "Compiled " ++ inv.input ++ " -> " ++ inv.output ++ " (" ++ toString o.symbols.length ++
    " functions, " ++ toString bytes.length ++ " bytes, " ++ toString relocations ++
    " relocations)\n"

def writeOr {m : Type → Type} [Monad m] (files : Files m) (path : String) (bytes : List UInt8)
    (trouble : Trouble) : ExceptT Trouble m Unit := do
  if !(← files.write path bytes) then throw trouble

/-- Carry out an invocation. The tables are written before the section is linked. -/
def execute {m : Type → Type} [Monad m] (files : Files m) (inv : Invocation) :
    ExceptT Trouble m String := do
  let some contents ← files.read inv.input | throw (.unreadable inv.input)
  let fs ← describedFunctions inv.input contents
  let object ← sectionOf inv fs
  if let some path := inv.relocs then
    writeOr files path ((tables object).indented 0).toUTF8.toList (.unwritableRelocs path)
  let bytes ← image inv object
  writeOr files inv.output bytes (.unwritableOutput inv.output)
  return summary inv object bytes

structure Report where
  exit : Nat
  stdout : String := ""
  stderr : String := ""
  /-- The error that ended it. -/
  cause : Option Trouble := none
  deriving Repr

def usage : String :=
  "Usage: compile <INPUT> --output <OUTPUT> [--emit-relocs <FILE>] [--base <ADDR>] " ++
    "[--define <NAME=ADDR>]... [--no-peephole] [--no-relax] [--keep-fallthrough-jumps]\n"

def Report.ofTrouble (t : Trouble) : Report :=
  let tail := match t.cause? with
    | some e => "\n\nCaused by:\n    " ++ e.message ++ "\n"
    | none => "\n"
  { exit := 1, stderr := "Error: " ++ t.text ++ tail, cause := some t }

def run {m : Type → Type} [Monad m] (files : Files m) (args : List String) : m Report := do
  match parse args with
  | .error .help => return { exit := 0, stdout := usage }
  | .error refusal => return { exit := 2, stderr := refusal.text ++ "\n\n" ++ usage }
  | .ok inv =>
    match ← (execute files inv).run with
    | .ok text => return { exit := 0, stdout := text }
    | .error t => return .ofTrouble t

end DirectPage.CommandLine
