import FilterQuery.Command.Run
import Std.Time.DateTime.Timestamp
/-!
# The program

The outer layer: arguments, clock and standard input in, standard output, standard
error and the exit code out.
-/

namespace FilterQuery

/-- The present. -/
def readClock : IO Instant := do
  let now := (← Std.Time.Timestamp.now).toNanosecondsSinceUnixEpoch.val
  match Instant.ofParts? (now / 1000000000) (now % 1000000000).toNat with
  | some clock => return clock
  | none => throw (IO.userError "the clock is out of range")

/-- All bytes of a stream. -/
partial def readAll (stream : IO.FS.Stream) (bytes : ByteArray) : IO ByteArray := do
  let chunk ← stream.read 65536
  if chunk.isEmpty then return bytes else readAll stream (bytes ++ chunk)

end FilterQuery

open FilterQuery in
/-- Runs the command that the arguments ask for. -/
def main (arguments : List String) : IO UInt32 := do
  let stdin ←
    if (Request.ofArguments? arguments).any (·.readsInput) then
      readAll (← IO.getStdin) ByteArray.empty
    else pure ByteArray.empty
  let outcome := run (← readClock) arguments stdin
  IO.print outcome.output
  IO.eprint outcome.errors
  return outcome.exitCode.toUInt32
