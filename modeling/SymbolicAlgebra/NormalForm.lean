import SymbolicAlgebra.NormalForm.Cancellation
import SymbolicAlgebra.NormalForm.Linear

/-! The normal form of an expression: powers of equal bases joined, rational
functions of one symbol in lowest terms, and leading coefficients taken out of
powers of linear forms. An expression with too many nodes is only simplified. -/

namespace SymbolicAlgebra.Expr

/-- Expressions with more nodes are only simplified. -/
def normalSizeLimit : Nat := 160

/-- The normal form of a product, given that of its factors. -/
def normalProduct (next : Expr → Expr) (e : Expr) : Expr :=
  let (q, factors) := e.splitQuotient
  let product := factors.foldl (fun product f => product.mulExpr (next f))
    (FactoredProduct.ofCoeff q)
  if product.coeff = 0 then zero
  else if product.symbolic.isEmpty then product.cancelled?.getD product.toExpr
  else product.toExpr

/-- The leading coefficient of a linear base, if it can be taken out of a power. -/
def linearPower? (base : Expr) : Expr → Option Expr
  | const k =>
      if k.isInt then (LinearForm.ofExpr? base).bind fun l => l.factoredPower? k else none
  | _ => none

/-- The normal form of a power of two normal forms. -/
def normalPower (base exponent : Expr) : Expr :=
  match linearPower? base exponent with
  | some e => e.simplify
  | none => base.raise exponent

/-- The normal form of an expression, given that of its parts. -/
def normalLevel (limit : Nat) (next : Expr → Expr) (e : Expr) : Expr :=
  if limit < e.size then e.simplify
  else match e with
    | add a b => (next a).plus (next b)
    | sub a b => (next a).minus (next b)
    | neg a => (next a).negate
    | mul a b => normalProduct next (mul a b)
    | div a b => normalProduct next (div a b)
    | pow a b => normalPower (next a) (next b)
    | app f a => app f (next a).linearized
    | e => e

/-- Normal forms of expressions of bounded depth. -/
def normalizeWithin (limit : Nat) : Nat → Expr → Expr
  | 0, e => e
  | depth + 1, e => normalLevel limit (normalizeWithin limit depth) e

/-- The normal form within a given size. The factors of a simplified expression are
smaller than the expression, so its size bounds the depth. -/
def normalizeSized (e : Expr) (limit : Nat) : Expr :=
  normalizeWithin limit (e.simplify.size + 1) e.simplify

def normalize (e : Expr) : Expr := e.normalizeSized normalSizeLimit

end SymbolicAlgebra.Expr
