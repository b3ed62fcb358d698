import SymbolicAlgebra.Arithmetic.Product

/-! Multiplying out. Powers of sums stay as they are, and so do sums over a
denominator and products that would show too many terms. -/

namespace SymbolicAlgebra.Expr

/-- Products are multiplied out up to this many terms. -/
def expansionLimit : Nat := 64

/-- Multiply each term of the first sum, and then of the second, by the other
operand while the result stays small. -/
def expandTimes (x y : Expr) : Expr :=
  if x.termCount * y.termCount ≤ expansionLimit then
    if x.isSum && !y.hasDivisor then
      match x with
      | add a b => (expandTimes a y).plus (expandTimes b y)
      | sub a b => (expandTimes a y).minus (expandTimes b y)
      | x => x.times y
    else if y.isSum && !x.hasDivisor then
      match y with
      | add a b => (expandTimes a x).plus (expandTimes b x)
      | sub a b => (expandTimes a x).minus (expandTimes b x)
      | y => x.times y
    else x.times y
  else x.times y
termination_by x.size + y.size
decreasing_by all_goals simp only [size]; omega

/-- Multiply out products of sums and collect the terms. -/
def expand : Expr → Expr
  | add a b => a.expand.plus b.expand
  | sub a b => a.expand.minus b.expand
  | neg a => a.expand.negate
  | mul a b => expandTimes a.expand b.expand
  | div a b => a.expand.dividedBy b.expand
  | e => e

end SymbolicAlgebra.Expr
