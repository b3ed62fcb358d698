import SymbolicAlgebra.DefiniteIntegral
import SymbolicAlgebra.InputLine

/-! The program: the bounds on one line, the function on the next, the integral on
the output. Both bounds are checked before the second line is read, and nothing
is written unless every check has passed. -/

namespace SymbolicAlgebra.Program

def readBounds (settings : Settings) (line : List UInt8) : Except RunFault (Expr × Expr) := do
  let text ← InputLine.value settings.boundsLabel line
  let (lower, upper) ← InputLine.boundTexts text
  let lower ← (Expr.ofBoundText lower).mapError RunFault.ofFault
  let upper ← (Expr.ofBoundText upper).mapError RunFault.ofFault
  return (lower, upper)

/-- The output for the bounds and the second line. -/
def finish (settings : Settings) (bounds : Expr × Expr) (line : List UInt8) :
    Except RunFault String := do
  let function ← InputLine.value settings.functionLabel line
  let integrand ← (Expr.ofIntegrandText settings function).mapError RunFault.ofFault
  return (DefiniteIntegral.mk bounds.1 bounds.2 integrand settings.symbol).latex ++ "\n"

/-- The output for a stream, and the bytes that were not read. -/
def run (settings : Settings) (stream : ByteStream) : Except RunFault String × ByteStream :=
  let (first, stream) := stream.takeLine
  match readBounds settings first with
  | .error fault => (.error fault, stream)
  | .ok bounds =>
      let (second, stream) := stream.takeLine
      (finish settings bounds second, stream)

structure Outcome where
  status : UInt8
  output : String
  errors : String
  deriving DecidableEq, Repr

namespace Outcome

def ofResult : Except RunFault String → Outcome
  | .ok output => ⟨0, output, ""⟩
  | .error fault => ⟨fault.exitCode, "", fault.message ++ "\n"⟩

end Outcome

/-- The process on a given standard input. -/
def process (stream : ByteStream) : Outcome := .ofResult (run {} stream).1

end SymbolicAlgebra.Program
