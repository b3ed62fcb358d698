/-! Exact rationals: their decimal text and their powers. A power is folded only
for an integer exponent of bounded size, so that no constant grows without
limit, and never for zero to a negative exponent, which has no value. -/

namespace SymbolicAlgebra.Number

/-- An integer, or a quotient in lowest terms; the sign stands in front. -/
def text (q : Rat) : String :=
  if q.den = 1 then toString q.num else toString q.num ++ "/" ++ toString q.den

/-- Powers are folded up to this exponent, in either direction. -/
def foldLimit : Nat := 4096

def power? (base exponent : Rat) : Option Rat :=
  if exponent.den = 1 ∧ exponent.num.natAbs ≤ foldLimit then
    if 0 ≤ exponent.num then some (base.pow exponent.num.natAbs)
    else if base = 0 then none
    else some (base.pow exponent.num.natAbs)⁻¹
  else none

end SymbolicAlgebra.Number
