import SymbolicAlgebra.FixedPoint
import SymbolicAlgebra.Fault

/-! Checks that an expression denotes a value. Divisors, bases and arguments are
simplified before they are compared with zero, so `1/(x - x)` is refused as well
as `1/0`. Parts are checked from left to right before the whole. -/

namespace SymbolicAlgebra.Expr

/-- True where simplification gives the constant zero. -/
def vanishes (e : Expr) : Bool := e.simplify.isZero

def isNegativeConst : Expr → Bool
  | const q => q < 0
  | _ => false

def hasPole : Fn → Bool
  | .log | .cot | .csc => true
  | _ => false

/-- Refuse divisions by zero, negative powers of zero and heads at a pole. -/
def requireDefined : Expr → Except Fault Unit
  | var _ | const _ | pi | infinity | undefined => .ok ()
  | add a b | sub a b | mul a b => do
      a.requireDefined
      b.requireDefined
  | div a b => do
      a.requireDefined
      b.requireDefined
      if b.vanishes then .error (.divisionByZero (div a b)) else .ok ()
  | pow a b => do
      a.requireDefined
      b.requireDefined
      if a.vanishes && b.simplify.isNegativeConst then .error (.zeroToNegativePower (pow a b))
      else .ok ()
  | neg a => a.requireDefined
  | app f a => do
      a.requireDefined
      if hasPole f && a.vanishes then .error (.undefinedAtZero (app f a)) else .ok ()

/-- Refuse an expression with an indeterminate part; `source` is what was read. -/
def requireDeterminate (source : String) (e : Expr) : Except Fault Unit :=
  if e.hasUndefined then .error (.indeterminate source) else .ok ()

def requireOnly (name : String) (e : Expr) : Except Fault Unit :=
  match e.symbols.filter (· ≠ name) with
  | [] => .ok ()
  | strays => .error (.strayNames name strays)

end SymbolicAlgebra.Expr
