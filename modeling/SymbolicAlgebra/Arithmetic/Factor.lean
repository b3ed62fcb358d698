import SymbolicAlgebra.Expr.Order
import SymbolicAlgebra.Collection.Sorting

/-! Products as lists of factors and a rational coefficient. A rebuilt product
nests to the left, holds its factors in order and no literal one, so that equal
products have one shape. -/

namespace SymbolicAlgebra.Expr

/-- The factors of nested products, literal ones dropped. -/
def factors : Expr → List Expr
  | mul a b => a.factors ++ b.factors
  | e => if e.isOne then [] else [e]

/-- The product of a list in the given order, nested to the left. -/
def product : List Expr → Expr
  | [] => one
  | a :: rest => rest.foldl mul a

/-- The product of a list in the order of expressions, without literal ones. -/
def sortedProduct (items : List Expr) : Expr :=
  product (Sorting.sort le (items.filter fun e => !e.isOne))

/-- The rational coefficient of a term and the product that remains. Signs and
constants are collected from nested products, not from inside sums. -/
def asMultiple : Expr → Rat × Expr
  | const q => (q, one)
  | neg a => let (q, rest) := a.asMultiple; (-q, rest)
  | mul a b =>
      let (p, left) := a.asMultiple
      let (q, right) := b.asMultiple
      (p * q, sortedProduct (left.factors ++ right.factors))
  | e => (1, e)

/-- `scaled q e`, given the form that `-e` takes. -/
def scaledWith (negated : Expr) (q : Rat) (e : Expr) : Expr :=
  if q = 0 then zero
  else if e.isOne then const q
  else if q = 1 then e
  else if q = -1 then negated
  else mul (const q) e

/-- The opposite, folded into a constant or a leading coefficient. -/
def negate : Expr → Expr
  | const q => const (-q)
  | neg a => a
  | undefined => undefined
  | mul (const q) b => scaledWith b.negate (-q) b
  | e => neg e

/-- A rational multiple in its simplest shape. -/
def scaled (q : Rat) (e : Expr) : Expr := scaledWith e.negate q e

theorem negate_mul_const (q : Rat) (b : Expr) : (mul (const q) b).negate = scaled (-q) b := rfl

end SymbolicAlgebra.Expr
