import SymbolicAlgebra.NormalForm
import SymbolicAlgebra.Arithmetic.Expansion

/-! The canonical form of an integrand: the normal form, or the form that is
multiplied out when that one has fewer nodes. -/

namespace SymbolicAlgebra.Expr

/-- The smaller of the two forms; the normal form if they are equally large. -/
def canonicalize (e : Expr) (passes : Nat) : Expr :=
  let factored := e.normalize.simplifyWithin passes
  let expanded := factored.expand.simplifyWithin passes
  if expanded.size < factored.size then expanded else factored

end SymbolicAlgebra.Expr
