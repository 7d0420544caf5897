import Packrat.CommandLine

/-! # The program

    Reads the standard input when it is needed, runs `CommandLine.run` and prints
    what it leaves behind. -/

namespace Packrat

/-- All bytes that `stream` still holds. -/
partial def readAll (stream : IO.FS.Stream) (read : ByteArray) : IO ByteArray := do
  let chunk ← stream.read 65536
  if chunk.isEmpty then return read else readAll stream (read ++ chunk)

/-- The standard input, unless the arguments already name the inputs. -/
def readInput (args : List String) : IO ByteArray := do
  match CommandLine.Request.ofArgs args with
  | .ok request => if request.inputs.isEmpty then readAll (← IO.getStdin) .empty else return .empty
  | .error _ => return .empty

end Packrat

/-- Runs the program. -/
def main (args : List String) : IO UInt32 := do
  let outcome := Packrat.CommandLine.run args (← Packrat.readInput args)
  IO.print outcome.output
  IO.eprint outcome.errors
  return outcome.status.toUInt32
