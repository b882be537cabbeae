import Plc.Command

/-!
The program `plc`: it reads the file, asks `Command.respond` and prints the answer.
-/

/-- The bytes of a file, none where it cannot be read. -/
def Plc.Command.readFile? (name : String) : IO (Option ByteArray) := do
  try
    let bytes ← IO.FS.readBinFile name
    pure (some bytes)
  catch _ => pure none

def main (args : List String) : IO UInt32 := do
  let bytes ← match Plc.Command.fileOf args with
    | some name => Plc.Command.readFile? name
    | none => pure none
  let response := Plc.Command.respond args bytes Plc.ampleFuel
  IO.print response.stdout
  IO.eprint response.stderr
  pure response.code.toUInt32
