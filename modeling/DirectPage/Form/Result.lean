import DirectPage.Form.Instruction
import DirectPage.Simulator.Run

/-! JSON forms of results and errors. -/
namespace DirectPage.Form

def error (e : Error) : Json := .obj [("error", .str e.kind), ("message", .str e.message)]

def failure : Failure → Json
  | .error e => error e
  | .abort => .obj [("error", .str "panic")]

def checked {α : Type} (f : α → Json) : Checked α → Json
  | .ok a => f a
  | .error e => failure e

def fixupKind? : Json → Option FixupKind := Json.named? FixupKind.name FixupKind.all

def fixup (f : Fixup) : Json :=
  .arr [.nat f.offset, .str f.kind.name, .str f.target.name, word f.target.addend, .nat f.instrEnd]

def fixup? : Json → Option Fixup
  | .arr (offset :: kind :: name :: addend :: stop :: _) => do
    return ⟨← offset.size?, ← fixupKind? kind, ⟨← name.str?, ← addend.word?⟩, ← stop.size?⟩
  | _ => none

def i64? : Json → Option Int := Json.between? (-9223372036854775808) 9223372036854775807

def relocation (r : Relocation) : Json :=
  .arr [.nat r.offset, .str r.rtype.text, .str r.symbol, .int r.addend]

def relocation? : Json → Option Relocation
  | .arr (offset :: rtype :: name :: addend :: _) => do
    return ⟨← offset.size?, ← Json.named? RelocType.text RelocType.all rtype, ← name.str?,
      ← i64? addend⟩
  | _ => none

def encodedMembers (f : EncodedFunction) : List (String × Json) :=
  [("code", bytes f.code), ("fixups", .list fixup f.fixups),
    ("instructions", .list instruction f.instructions), ("name", .str f.name),
    ("stack_size", .nat f.stackSize)]

def encoded (f : EncodedFunction) : Json := .obj (encodedMembers f)

def symbolEntry (s : Symbol) : Json := .arr [.str s.name, .nat s.offset, .nat s.size]

def objectMembers (o : Object) : List (String × Json) :=
  [("code", bytes o.code), ("relocations", .list relocation o.relocations),
    ("symbols", .list symbolEntry o.symbols)]

def object (o : Object) : Json := .obj (objectMembers o)

def registers (rs : List Register) : Json := .list registerJson rs

def texts (ms : List Pseudo) : Json := .list (fun m => .str m.text) ms

def frame (f : Frame) : Checked Json := do
  let prologue ← f.entryCode
  return .obj [
    ("call_frame_size", .nat f.callFrameSize), ("epilogue", texts f.epilogue),
    ("frame_base", .bool f.frameBase), ("prologue", texts prologue),
    ("reserved_call_frame", .bool f.reservedCallFrame), ("saved", registers f.saved),
    ("stack_size", .nat f.stackSize)]

/-- Entries by number; of two with one number the later one counts. -/
def sortedMap (map : List (Nat × Register)) : List (Nat × Register) :=
  map.mergeSort fun a b => a.1 ≤ b.1

def assignment (a : Allocation.Assignment) : Json :=
  .obj [("callee_saved", registers a.calleeSaved),
    ("map", .list (fun (v, r) => .arr [.nat v, registerJson r]) (sortedMap a.map)),
    ("spilled", .nats a.spilled)]

def returned (r : Returned) : Json :=
  .obj [("f0", double r.f0), ("r0", unsignedWord r.r0), ("r1", unsignedWord r.r1),
    ("sp", unsignedWord r.sp), ("steps", .nat r.steps)]

def argLoc : ArgLoc → Json
  | .reg r => registerJson r
  | .stack offset size => .nats [offset, size]

def action : Selection.Action → Json
  | .legal => .str "Legal"
  | .custom => .str "Custom"
  | .expand => .str "Expand"
  | .libCall name => .arr [.str "LibCall", .str name]
  | .unsupported => .str "Unsupported"

def arg? : Json → Option Arg
  | .arr (.str "i32" :: k :: _) => k.word?.map .i32
  | .arr (.str "f32" :: x :: _) => (bits? 8 x).map fun n => .f32 (BitVec.ofNat 32 n)
  | .arr (.str "f64" :: x :: _) => (double? x).map .f64
  | _ => none

def option? (j : Json) (name : String) : Option Bool :=
  match j.member? name with
  | none => some true
  | some v => v.bool?

def options? (j : Json) : Option Options := do
  let _ ← j.obj?
  return ⟨← option? j "peephole", ← option? j "relax", ← option? j "fold"⟩

end DirectPage.Form
