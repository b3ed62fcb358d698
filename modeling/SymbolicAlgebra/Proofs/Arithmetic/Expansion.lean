import SymbolicAlgebra.Arithmetic.Expansion

/-! Multiplying out as a relation, so that what is true of every way to multiply out
needs none of the bounds that choose one. -/

namespace SymbolicAlgebra.Expr

/-- The products of two operands that take sums apart, on either side, as far as they do. -/
inductive Multiplied : Expr → Expr → Expr → Prop where
  | times (a b : Expr) : Multiplied a b (a.times b)
  | add {a b c r s : Expr} (first : Multiplied a c r) (second : Multiplied b c s) :
      Multiplied (.add a b) c (r.plus s)
  | sub {a b c r s : Expr} (first : Multiplied a c r) (second : Multiplied b c s) :
      Multiplied (.sub a b) c (r.minus s)
  | swap {a b r : Expr} (h : Multiplied a b r) : Multiplied b a r

theorem expandTimes_multiplied (a b : Expr) : Multiplied a b (expandTimes a b) := by
  induction total : a.size + b.size using Nat.strongRecOn generalizing a b with
  | ind n ih =>
    subst total
    have shorter {c d : Expr} (less : c.size + d.size < a.size + b.size) :
        Multiplied c d (expandTimes c d) := ih _ less c d rfl
    unfold expandTimes
    split
    next =>
      split
      next =>
        split
        next =>
          simp only [size] at shorter
          exact .add (shorter (by omega)) (shorter (by omega))
        next =>
          simp only [size] at shorter
          exact .sub (shorter (by omega)) (shorter (by omega))
        next => exact .times _ b
      next =>
        split
        next =>
          split
          next =>
            simp only [size] at shorter
            exact .swap (.add (shorter (by omega)) (shorter (by omega)))
          next =>
            simp only [size] at shorter
            exact .swap (.sub (shorter (by omega)) (shorter (by omega)))
          next => exact .times a _
        next => exact .times a b
    next => exact .times a b

end SymbolicAlgebra.Expr
