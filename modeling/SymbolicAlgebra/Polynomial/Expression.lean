import SymbolicAlgebra.Expr
import SymbolicAlgebra.Polynomial.Division

/-! Polynomials and expressions. An expression is read as a polynomial in a symbol
when it is built from the symbol and literals by sums, products, division by
literals and natural powers, and no part has too high a degree. -/

namespace SymbolicAlgebra.Poly

/-- The highest degree that is read from an expression. -/
def degreeLimit : Nat := 256

/-- Polynomials of too high a degree are not built. -/
def bounded? (p : Poly) : Option Poly := if p.degree ≤ degreeLimit then some p else none

/-- The exponent that a literal writes, if it is a natural number. -/
def exponent? (e : Expr) : Option Nat :=
  match e.literal? with
  | some k => if k.isInt && 0 ≤ k.num && k.num.natAbs < exponentBound then some k.num.natAbs else none
  | none => none

/-- A power whose degree stays within the limit. -/
def boundedPow? (p : Poly) (k : Nat) : Option Poly :=
  if p.degree * k ≤ degreeLimit then some (p.pow k) else none

/-- Read an expression as a polynomial in the named symbol. -/
def ofExpr? (name : String) (e : Expr) : Option Poly :=
  if e.mentions name then
    let read : Option Poly := match e with
      | .var _ => some (monomial 1 1)
      | .neg a => (ofExpr? name a).map neg
      | .add a b => (ofExpr? name a).bind fun p => (ofExpr? name b).map p.add
      | .sub a b => (ofExpr? name a).bind fun p => (ofExpr? name b).map p.sub
      | .mul a b => (ofExpr? name a).bind fun p => (ofExpr? name b).map p.mul
      | .div a b =>
          match b.literal? with
          | some d => if d = 0 then none else (ofExpr? name a).map fun p => p.scale d⁻¹
          | none => none
      | .pow a b => (exponent? b).bind fun k => (ofExpr? name a).bind fun p => p.boundedPow? k
      | _ => none
    read.bind bounded?
  else e.literal?.map const

def termExpr (name : String) (t : Nat × Rat) : Expr :=
  if t.1 = 0 then .const t.2
  else
    let power := if t.1 = 1 then .var name else .pow (.var name) (.const t.1)
    if t.2 = 1 then power else .mul (.const t.2) power

/-- The terms in ascending order of degree, as one sum. -/
def toExpr (name : String) (p : Poly) : Expr :=
  match p.terms.map (termExpr name) with
  | [] => .zero
  | first :: rest => rest.foldl .add first

end SymbolicAlgebra.Poly
