import SymbolicAlgebra.Arithmetic.Sum
import SymbolicAlgebra.Number

/-! Multiplication, powers and division. A product stays factored: equal bases
are joined by adding their exponents, and only a number is distributed over a
sum. Products raise their bases and powers multiply their exponents, each time
inside a smaller base, so both are defined over a count of nested levels. -/

namespace SymbolicAlgebra.Expr

/-- True for an infinite factor of either sign. -/
def hasInfiniteFactor (e : Expr) : Bool :=
  e.factors.any fun f => f = infinity || f = neg infinity

/-- A product without a value: a factor without one, or zero times infinity. -/
def isIndeterminateProduct (x y : Expr) : Bool :=
  x = undefined || y = undefined || x.isZero && y.hasInfiniteFactor || y.isZero && x.hasInfiniteFactor

def isInteger : Expr → Bool
  | const q => q.isInt
  | _ => false

def isOddInteger : Expr → Bool
  | const q => q.isInt && q.num % 2 = 1
  | _ => false

/-- Base and exponent of a factor; `exp` is a power of `e`. -/
def asPower : Expr → Expr × Expr
  | pow b e => (b, e)
  | app .exp a => (euler, a)
  | e => (e, one)

/-- Add an exponent to that of the same base, or list a new base last. -/
def joinPower (base exponent : Expr) : List (Expr × Expr) → List (Expr × Expr)
  | [] => [(base, exponent)]
  | (b, e) :: rest =>
      if b = base then (b, e.plus exponent) :: rest else (b, e) :: joinPower base exponent rest

/-- The powers that a list of factors multiplies, equal bases joined. -/
def joinedPowers (items : List Expr) : List (Expr × Expr) :=
  items.foldl (fun powers item => joinPower item.asPower.1 item.asPower.2 powers) []

/-- Join equal bases. Powers that fold to numbers make up the coefficient. -/
def productOfPowers (raise : Expr → Expr → Expr) (items : List Expr) : Rat × Expr :=
  let raised := (joinedPowers items).map fun (base, exponent) => raise base exponent
  ((raised.filterMap value?).foldr (· * ·) 1,
    sortedProduct ((raised.filter fun e => e.value?.isNone).flatMap factors))

/-- A product in which no number meets a sum. -/
def timesPlain (raise : Expr → Expr → Expr) (x y : Expr) : Expr :=
  if isIndeterminateProduct x y then undefined
  else match x.value?, y.value? with
    | some p, some q => const (p * q)
    | _, _ =>
      if x.isZero || y.isZero then zero
      else if x.isOne then y
      else if y.isOne then x
      else
        let (q, rest) := (mul x y).asMultiple
        let (folded, rest) := productOfPowers raise rest.factors
        if rest = infinity ∧ q * folded ≠ 0 then signedInfinity (q * folded)
        else scaled (q * folded) rest

/-- A number times each term of a nested sum. -/
def timesConst (raise : Expr → Expr → Expr) (q : Rat) : Expr → Expr
  | add a b => (timesConst raise q a).plus (timesConst raise q b)
  | sub a b => (timesConst raise q a).minus (timesConst raise q b)
  | e => timesPlain raise e (const q)

/-- The number that is distributed over a sum: any but zero and one. -/
def multiplier? : Expr → Option Rat
  | const q => if q = 0 ∨ q = 1 then none else some q
  | _ => none

/-- A product, given how bases are raised. -/
def timesWith (raise : Expr → Expr → Expr) (x y : Expr) : Expr :=
  match if y.isSum then x.multiplier? else none, if x.isSum then y.multiplier? else none with
  | some q, _ => timesConst raise q y
  | none, some q => timesConst raise q x
  | none, none => timesPlain raise x y

/-- `exp` of a product, where `exp 0` and `exp (log u)` are folded. -/
def exponential (a : Expr) : Expr :=
  if a.isZero then one
  else match a with
    | app .log u => u
    | a => app .exp a

/-- A power, given how products are formed. Zero and one decide first; an integer
exponent is multiplied into a power and distributed over a product. -/
def raiseWith (times : Expr → Expr → Expr) (base exponent : Expr) : Expr :=
  if base = undefined ∨ exponent = undefined then undefined
  else if exponent.isZero then one
  else if exponent.isOne then base
  else if base.isOne then one
  else match base with
    | const b =>
        match exponent.value?.bind (Number.power? b) with
        | some value => const value
        | none => pow (const b) exponent
    | infinity =>
        match exponent.value? with
        | some k => if k < 0 then zero else infinity
        | none => pow infinity exponent
    | app .exp a => exponential (times a exponent)
    | pow b p =>
        if exponent.isInteger then raiseWith times b (times p exponent)
        else pow (pow b p) exponent
    | mul a b =>
        if exponent.isInteger then times (raiseWith times a exponent) (raiseWith times b exponent)
        else pow (mul a b) exponent
    | neg a =>
        if exponent.isInteger then
          let raised := raiseWith times a exponent
          if exponent.isOddInteger then raised.negate else raised
        else pow (neg a) exponent
    | base => pow base exponent

/-- A product that looks into powers nested up to the given depth. -/
def timesWithin : Nat → Expr → Expr → Expr
  | 0, x, y =>
      if isIndeterminateProduct x y then undefined else sortedProduct (x.factors ++ y.factors)
  | depth + 1, x, y => timesWith (raiseWith (timesWithin depth)) x y

/-- More levels than powers can be nested in both operands together. -/
def nesting (x y : Expr) : Nat := (x.size + y.size) * (x.size + y.size)

def times (x y : Expr) : Expr := timesWithin (nesting x y + 1) x y

def raise (base exponent : Expr) : Expr :=
  raiseWith (timesWithin (nesting base exponent)) base exponent

/-- The quotient of two expressions. A division by the constant zero is kept as it is. -/
def dividedBy (x y : Expr) : Expr :=
  if y.isZero then div x y
  else match x.value?, y.value? with
    | some p, some q => const (p / q)
    | _, _ =>
      if x.isZero then zero
      else if y.isOne then x
      else x.times (y.raise (const (-1)))

/-- True for a power with a negative exponent among the factors. -/
def hasDivisor (e : Expr) : Bool :=
  e.factors.any fun
    | pow _ (const k) => k < 0
    | _ => false

end SymbolicAlgebra.Expr
