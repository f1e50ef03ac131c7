import LinearSystems.CommandLine.Answer

/-!
# Command line

Solves the equations of a file, or of the standard input, one on each line.
-/

namespace LinearSystems.CommandLine

/-- What the file that the options name holds, or else the standard input. -/
def readContent (options : Options) : IO ByteArray :=
  match options.file with
  | none => do
      let stdin ← IO.getStdin
      stdin.readBinToEnd
  | some path => IO.FS.readBinFile path

/-- Prints the answer to the arguments and returns its exit code. -/
def run (args : List String) : IO UInt32 := do
  let answer ←
    match Options.read args with
    | none => pure Answer.misused
    | some options => do
        let content ← (readContent options).toBaseIO
        pure (options.answer (content.mapError toString))
  IO.print answer.output
  if let some line := answer.complaint? then
    IO.eprintln line
  return answer.exitCode.toUInt32

end LinearSystems.CommandLine

def main (args : List String) : IO UInt32 := LinearSystems.CommandLine.run args
