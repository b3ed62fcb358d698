import SymbolicAlgebra.Arithmetic.Factor

/-! Identities of the heads at an evaluated argument: values at zero, one and
`pi`, a head applied to its inverse, and the sign of an odd or even head. The
first that applies decides. -/

namespace SymbolicAlgebra

inductive Parity where
  | odd | even | neither
  deriving DecidableEq, Repr

def Fn.parity : Fn → Parity
  | .sin | .tan | .cot | .csc | .asin | .atan | .sinh | .tanh | .asinh | .atanh => .odd
  | .cos | .sec | .cosh => .even
  | _ => .neither

namespace Expr

/-- The value of a head at a special argument. -/
def valueAt? (f : Fn) (arg : Expr) : Option Rat :=
  match f with
  | .sin | .tan => if arg.isZero ∨ arg = pi then some 0 else none
  | .cos => if arg = pi then some (-1) else if arg.isZero then some 1 else none
  | .sec | .cosh | .exp => if arg.isZero then some 1 else none
  | .asin | .atan | .sinh | .tanh | .asinh | .atanh => if arg.isZero then some 0 else none
  | .acos | .log => if arg.isOne then some 0 else none
  | _ => none

/-- The inner argument of a head applied to its inverse. -/
def cancelInverse? : Fn → Expr → Option Expr
  | .sin, app .asin u | .cos, app .acos u | .tan, app .atan u
  | .exp, app .log u | .log, app .exp u => some u
  | _, _ => none

/-- A head at a signed argument moves or drops the sign as its parity says. -/
def applySigned (f : Fn) : Expr → Expr
  | neg a =>
      match f.parity with
      | .odd => (app f a).negate
      | .even => app f a
      | .neither => app f (neg a)
  | a => app f a

/-- The absolute value; an exponential is positive. -/
def absolute : Expr → Expr
  | const q => const (if q < 0 then -q else q)
  | neg a => a.absolute
  | pi => pi
  | infinity => infinity
  | undefined => undefined
  | app .exp a => app .exp a
  | app .abs a => app .abs a
  | e => app .abs e

/-- A head around an evaluated argument. -/
def apply (f : Fn) (arg : Expr) : Expr :=
  if f = .abs then arg.absolute
  else if arg = undefined then undefined
  else match valueAt? f arg, cancelInverse? f arg with
    | some q, _ => const q
    | none, some u => u
    | none, none => applySigned f arg

end Expr
end SymbolicAlgebra
