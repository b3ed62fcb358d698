import SymbolicAlgebra.FixedPoint
import SymbolicAlgebra.NormalForm.FactoredProduct
import SymbolicAlgebra.Polynomial.Expression

/-! Quotients of polynomials in lowest terms. Numerator and denominator are read
as polynomials in their only symbol, divided by their greatest common divisor
and made monic; the ratio of the leading coefficients goes to the numerator. -/

namespace SymbolicAlgebra.Expr

/-- A power of anything but a symbol or a number; it is not read as a polynomial. -/
def raisesCompound : Expr → Bool
  | pow a b =>
      (match a with
        | var _ | const _ => false
        | _ => true) || a.raisesCompound || b.raisesCompound
  | add a b | sub a b | mul a b | div a b => a.raisesCompound || b.raisesCompound
  | neg a | app _ a => a.raisesCompound
  | var _ | const _ | pi | infinity | undefined => false

/-- The quotient of two polynomials by a common divisor, if it is exact. -/
def lowestTerms? (name : String) (p q d : Poly) : Option (Expr × Expr) :=
  (p.exactQuotient? d).bind fun p => (q.exactQuotient? d).map fun q =>
    let scale := p.leadingCoeff / q.leadingCoeff
    let numerator := (p.monic.toExpr name).simplify
    (if scale = 1 then numerator else (const scale).times numerator, (q.monic.toExpr name).simplify)

/-- Numerator and denominator in lowest terms. There are none where the two are not
polynomials in one symbol or have no common divisor of positive degree. -/
def cancelGcd? (numerator denominator : Expr) : Option (Expr × Expr) :=
  match (div numerator denominator).symbols with
  | [name] =>
      (Poly.ofExpr? name numerator).bind fun p => (Poly.ofExpr? name denominator).bind fun q =>
        if q.isZero then none
        else if p.isZero then some (zero, one)
        else if (p.gcd q).degree = 0 then none
        else lowestTerms? name p q (p.gcd q)
  | _ => none

/-- Base and exponent of a divisor; an exponent that is no number stays in the base. -/
def divisorPower : Expr → Expr × Rat
  | pow base (const k) => (base, k)
  | e => (e, 1)

/-- The quotient as a product with a power to minus one. -/
def quotient (numerator denominator : Expr) : Expr :=
  if denominator.isOne then numerator
  else
    let (q, factors) := denominator.splitQuotient
    if q = 0 then div numerator denominator
    else
      let exponents : Exponents := factors.foldl (fun exponents f =>
        Tally.add cmp f.divisorPower.1 f.divisorPower.2 exponents) []
      ((const q⁻¹).times numerator).times ((exponents.toExpr 1).raise (const (-1)))

end SymbolicAlgebra.Expr

namespace SymbolicAlgebra.FactoredProduct

/-- The product in lowest terms, if it is a quotient with something to cancel. -/
def cancelled? (p : FactoredProduct) : Option Expr :=
  if p.divisors.isEmpty then none
  else
    let denominator := p.divisors.toExpr 1
    if p.numerator.raisesCompound || denominator.raisesCompound then none
    else (Expr.cancelGcd? p.numerator denominator).map fun (n, d) => n.quotient d

end SymbolicAlgebra.FactoredProduct
