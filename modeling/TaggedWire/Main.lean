import TaggedWire.Command

/-! The command line. -/
namespace TaggedWire.Command

partial def readAll (input : IO.FS.Stream) (got : ByteArray) : IO ByteArray := do
  let chunk ← input.read 65536
  if chunk.isEmpty then return got else readAll input (got ++ chunk)

/-- The bytes of a source, or nothing if they cannot be read. -/
def Source.read : Source → IO (Option Bytes)
  | .standardInput => do
    try return some (← readAll (← IO.getStdin) .empty).toList
    catch _ => return none
  | .file path => do
    try return some (← IO.FS.readBinFile path).toList
    catch _ => return none

end TaggedWire.Command

def main (args : List String) : IO UInt32 := do
  let report := TaggedWire.Command.report (← (TaggedWire.Command.source args).read)
  (← IO.getStdout).putStr report.output
  return report.exitCode
