import SymbolicAlgebra.Arithmetic.Product

/-! Products as a rational coefficient, bases with rational exponents, and powers
whose exponent is no number. -/

namespace SymbolicAlgebra

/-- The coefficient of a product or quotient and its factors, divisors as powers to
minus one. A division by the number zero is kept whole. -/
def Expr.splitQuotient : Expr → Rat × List Expr
  | const q => (q, [])
  | neg a => let (q, factors) := a.splitQuotient; (-q, factors)
  | mul a b =>
      let (p, left) := a.splitQuotient
      let (q, right) := b.splitQuotient
      (p * q, left ++ right)
  | div a b =>
      let (q, divisors) := b.splitQuotient
      if q = 0 then (1, [div a b])
      else
        let (p, factors) := a.splitQuotient
        (p / q, factors ++ divisors.map fun d => pow d (const (-1)))
  | e => (1, [e])

/-- Exponents by base, in the order of the bases. -/
abbrev Exponents := Tally Expr

namespace Exponents

/-- `coeff` times each base to its exponent, in the order of the bases. -/
def toExpr (coeff : Rat) (exponents : Exponents) : Expr :=
  if coeff = 0 then .zero
  else (exponents.filter fun entry => entry.2 ≠ 0).foldl
    (fun product (base, exponent) => product.times (base.raise (.const exponent))) (.const coeff)

end Exponents

structure FactoredProduct where
  coeff : Rat
  exponents : Exponents
  /-- Powers whose exponent is no number. -/
  symbolic : List Expr

namespace FactoredProduct

def ofCoeff (q : Rat) : FactoredProduct := ⟨q, [], []⟩

def mulFactor (p : FactoredProduct) : Expr → FactoredProduct
  | .const q => { p with coeff := p.coeff * q }
  | .pow base (.const k) => { p with exponents := p.exponents.add Expr.cmp base k }
  | .pow base exponent => { p with symbolic := p.symbolic ++ [.pow base exponent] }
  | e => { p with exponents := p.exponents.add Expr.cmp e 1 }

/-- Multiply by a product that is split into its factors. -/
def mulExpr (p : FactoredProduct) (e : Expr) : FactoredProduct :=
  let (q, factors) := e.splitQuotient
  factors.foldl mulFactor { p with coeff := p.coeff * q }

def toExpr (p : FactoredProduct) : Expr :=
  p.symbolic.foldl Expr.times (p.exponents.toExpr p.coeff)

/-- The product of the positive powers, with the coefficient. -/
def numerator (p : FactoredProduct) : Expr :=
  Exponents.toExpr p.coeff (p.exponents.filter fun entry => 0 < entry.2)

/-- The bases that are divided by, with their exponents turned. -/
def divisors (p : FactoredProduct) : Exponents :=
  (p.exponents.filter fun entry => entry.2 < 0).map fun (base, exponent) => (base, -exponent)

end FactoredProduct
end SymbolicAlgebra
