import SymbolicAlgebra.Polynomial

/-! Long division and the greatest common divisor. Each step of a division
removes the leading term of the remainder, and each remainder has a smaller
degree than the divisor before it, so the degrees bound both loops. -/

namespace SymbolicAlgebra.Poly

/-- Subtract multiples of the divisor from the remainder, at most `steps` times. -/
def divideWithin (divisor : Poly) (lowest : Nat) : Nat → Poly → Poly → Poly × Poly
  | 0, quotient, remainder => (quotient, remainder)
  | steps + 1, quotient, remainder =>
      match remainder.degree? with
      | none => (quotient, remainder)
      | some d =>
          if lowest ≤ d then
            let step := monomial (d - lowest) (remainder.leadingCoeff / divisor.leadingCoeff)
            divideWithin divisor lowest steps (quotient.add step) (remainder.sub (step.mul divisor))
          else (quotient, remainder)

/-- Quotient and remainder. Division by zero leaves everything as remainder. -/
def divMod (p divisor : Poly) : Poly × Poly :=
  match divisor.degree? with
  | none => (zero, p)
  | some lowest => divideWithin divisor lowest (p.degree + 1) zero p

/-- The quotient, if nothing remains. -/
def exactQuotient? (p divisor : Poly) : Option Poly :=
  let (quotient, remainder) := p.divMod divisor
  if remainder.isZero then some quotient else none

/-- Replace the pair by divisor and remainder until nothing remains. -/
def gcdWithin : Nat → Poly → Poly → Poly
  | 0, p, _ => p.monic
  | steps + 1, p, q => if q.isZero then p.monic else gcdWithin steps q (p.divMod q).2

/-- The monic greatest common divisor. -/
def gcd (p q : Poly) : Poly := gcdWithin (q.degree + 2) p q

end SymbolicAlgebra.Poly
