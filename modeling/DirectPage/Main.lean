import DirectPage.CommandLine

/-! The program. -/
namespace DirectPage.CommandLine

def onDisk : Files IO where
  read path := try return some (← IO.FS.readFile path) catch _ => return none
  write path bytes :=
    try IO.FS.writeBinFile path ⟨bytes.toArray⟩; return true catch _ => return false

end DirectPage.CommandLine

def main (args : List String) : IO UInt32 := do
  let report ← DirectPage.CommandLine.run DirectPage.CommandLine.onDisk args
  IO.print report.stdout
  IO.eprint report.stderr
  return UInt32.ofNat report.exit
