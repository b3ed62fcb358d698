import SymbolicAlgebra.Arithmetic.Sum
import SymbolicAlgebra.Collection.Picking

/-! Two identities that join a pair of terms of a sum:
`q sin(u)^2 r + q cos(u)^2 r` is `q r`, and
`q sin(u) sin(v) r + q cos(u) cos(v) r` is `q cos(u - v) r`.
The first is tried on every pair before the second. -/

namespace SymbolicAlgebra

/-- A term `coeff * head(arg)^2 * rest` whose head is `sin` or `cos`. -/
structure SquaredTerm where
  coeff : Rat
  head : Fn
  arg : Expr
  rest : List Expr
  deriving DecidableEq

namespace SquaredTerm

def ofFactor? : Expr → Option (Fn × Expr)
  | .pow (.app .sin u) (.const k) => if k = 2 then some (.sin, u) else none
  | .pow (.app .cos u) (.const k) => if k = 2 then some (.cos, u) else none
  | _ => none

/-- The first squared sine or cosine is taken. -/
def ofTerm? (e : Expr) : Option SquaredTerm :=
  let (q, core) := e.asMultiple
  (Picking.pick? ofFactor? core.factors).map fun ((head, arg), rest) =>
    ⟨q, head, arg, Sorting.sort Expr.le rest⟩

/-- The sum of a squared sine and a squared cosine that are otherwise the same. -/
def join? : Option SquaredTerm → Option SquaredTerm → Option Expr
  | some s, some t =>
      if s.head ≠ t.head ∧ s.coeff = t.coeff ∧ s.arg = t.arg ∧ s.rest = t.rest then
        some (Expr.scaled s.coeff (Expr.product s.rest))
      else none
  | _, _ => none

end SquaredTerm

/-- A term `coeff * sin(..) * cos(..) * others`, each list in order. -/
structure AngleTerm where
  coeff : Rat
  sines : List Expr
  cosines : List Expr
  others : List Expr
  deriving DecidableEq

namespace AngleTerm

def sineArg? : Expr → Option Expr
  | .app .sin u => some u
  | _ => none

def cosineArg? : Expr → Option Expr
  | .app .cos u => some u
  | _ => none

def ofTerm (e : Expr) : AngleTerm :=
  let (q, core) := e.asMultiple
  { coeff := q
    sines := Sorting.sort Expr.le (core.factors.filterMap sineArg?)
    cosines := Sorting.sort Expr.le (core.factors.filterMap cosineArg?)
    others := Sorting.sort Expr.le
      (core.factors.filter fun f => (sineArg? f).isNone && (cosineArg? f).isNone) }

/-- `cos(u - v)` from a term with two sines and one with the two cosines. -/
def difference? (s c : AngleTerm) : Option Expr :=
  match s.sines with
  | [u, v] =>
      if s.cosines = [] ∧ c.sines = [] ∧ s.sines = c.cosines ∧ s.coeff = c.coeff
          ∧ s.others = c.others then
        let core := Expr.product s.others
        let cosine := Expr.app .cos (.sub u v)
        some (Expr.scaled s.coeff (if core.isOne then cosine else .mul core cosine))
      else none
  | _ => none

def join? (s t : AngleTerm) : Option Expr := (difference? s t).or (difference? t s)

end AngleTerm

/-- Join the first pair of terms that an identity joins: the joined term and the
terms that remain. -/
def joinTerms? (terms : List Expr) : Option (Expr × List Expr) :=
  let picked := (Picking.pickPair? (fun s t => SquaredTerm.join? s.2 t.2)
    (terms.map fun e => (e, SquaredTerm.ofTerm? e))).map fun (e, rest) => (e, rest.map (·.1))
  match picked with
  | some found => some found
  | none => (Picking.pickPair? (fun s t => AngleTerm.join? s.2 t.2)
      (terms.map fun e => (e, AngleTerm.ofTerm e))).map fun (e, rest) => (e, rest.map (·.1))

end SymbolicAlgebra
