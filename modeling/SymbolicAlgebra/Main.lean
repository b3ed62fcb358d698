import SymbolicAlgebra.Program

/-! The command line. Standard input is read one byte at a time, so that no line is
taken before it is needed. -/

namespace SymbolicAlgebra.Program

/-- Read a line of standard input, with its newline. -/
partial def takeLine (input : IO.FS.Stream) (line : List UInt8) : IO (List UInt8) := do
  let bytes ← input.read 1
  match bytes.toList with
  | [] => return line.reverse
  | b :: _ =>
      if b = ByteStream.newline then return (b :: line).reverse else takeLine input (b :: line)

def result (settings : Settings) : IO (Except RunFault String) := do
  let input ← IO.getStdin
  match readBounds settings (← takeLine input []) with
  | .error fault => return .error fault
  | .ok bounds => return finish settings bounds (← takeLine input [])

end SymbolicAlgebra.Program

open SymbolicAlgebra in
def main : IO UInt32 := do
  let outcome := Program.Outcome.ofResult (← Program.result {})
  (← IO.getStdout).putStr outcome.output
  (← IO.getStdout).flush
  (← IO.getStderr).putStr outcome.errors
  return outcome.status.toUInt32
