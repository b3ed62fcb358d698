import SymbolicAlgebra.Arithmetic.Factor
import SymbolicAlgebra.Collection.Tally

/-! Addition. Two terms are alike when their factors are the same apart from a
rational coefficient; a sum adds the coefficients of like terms and lists the
terms in the order of their factors, with the constant last. An infinite term
absorbs every finite one, and infinite terms that cancel leave no value. -/

namespace SymbolicAlgebra.Expr

/-- The terms of a nested sum, negated ones in negated form. -/
def termsWithSign (negative : Bool) : Expr → List Expr
  | add a b => a.termsWithSign negative ++ b.termsWithSign negative
  | sub a b => a.termsWithSign negative ++ b.termsWithSign (!negative)
  | neg a => a.termsWithSign (!negative)
  | e => [if negative then e.negate else e]

def terms (e : Expr) : List Expr := e.termsWithSign false

/-- The sum of a list in the given order, nested to the left. -/
def sum : List Expr → Expr
  | [] => zero
  | a :: rest => rest.foldl add a

/-- The coefficients of like terms, keyed by the sorted factors of the term. -/
abbrev LikeTerms := Tally (List Expr)

/-- What a term adds to the like terms: nothing if its coefficient is zero. -/
def likeTerm? (e : Expr) : Option (List Expr × Rat) :=
  let (q, rest) := e.asMultiple
  if q = 0 then none else some (Sorting.sort le rest.factors, q)

def likeTerms (items : List Expr) : LikeTerms := Tally.ofList cmpList (items.filterMap likeTerm?)

/-- Infinity with the sign of a nonzero coefficient. -/
def signedInfinity (q : Rat) : Expr := if 0 < q then infinity else neg infinity

/-- The terms that a sum is written with. -/
def LikeTerms.written (tally : LikeTerms) : List Expr :=
  let terms := (tally.filter fun entry => !entry.1.isEmpty && entry.2 ≠ 0).map fun (key, q) =>
    scaled q (product key)
  let constant := (tally.find? []).getD 0
  if constant = 0 then terms else terms ++ [const constant]

/-- The sum of like terms. Infinite terms decide before finite ones. -/
def ofLikeTerms (tally : LikeTerms) : Expr :=
  if (tally.find? [undefined]).isSome then undefined
  else match tally.find? [infinity] with
    | some q => if q = 0 then undefined else signedInfinity q
    | none => sum tally.written

def plus (x y : Expr) : Expr := ofLikeTerms (likeTerms (x.terms ++ y.terms))

/-- The difference as a sum; no difference node is left at the top. -/
def minus (x y : Expr) : Expr := x.plus y.negate

def termCount : Expr → Nat
  | add a b | sub a b => a.termCount + b.termCount
  | neg a => a.termCount
  | _ => 1

end SymbolicAlgebra.Expr
