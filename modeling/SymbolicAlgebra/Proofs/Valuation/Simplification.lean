import SymbolicAlgebra.FixedPoint
import SymbolicAlgebra.Proofs.Valuation.Identity
import SymbolicAlgebra.Proofs.Valuation.Product
import SymbolicAlgebra.Proofs.Valuation.Real

/-! Simplification keeps values: where an expression has a value, so has every
form that any number of passes brings it into, and it is the same. An expression
with an infinite or an indeterminate part has no value. -/

namespace SymbolicAlgebra.Valuation
open SymbolicAlgebra.Expr

variable {K : Type*} [Field K] [CharZero K] [DecidableEq K] {V : Valuation K} {e : Expr} {x : K}

theorem Means.evaluate (h : V.Means e x) : V.Means e.evaluate x := by
  induction e generalizing x with
  | add a b iha ihb =>
      obtain ⟨y, z, left, right, rfl⟩ := means_add.mp h
      exact (iha left).plus (ihb right)
  | sub a b iha ihb =>
      obtain ⟨y, z, left, right, rfl⟩ := means_sub.mp h
      exact (iha left).minus (ihb right)
  | mul a b iha ihb =>
      obtain ⟨y, z, left, right, rfl⟩ := means_mul.mp h
      exact (iha left).times (ihb right)
  | div a b iha ihb =>
      obtain ⟨y, z, left, right, z_ne, rfl⟩ := means_div.mp h
      exact (iha left).dividedBy (ihb right) z_ne
  | pow a b iha ihb =>
      obtain ⟨y, z, base, exponent, has⟩ := means_pow.mp h
      exact ((iha base).pow (ihb exponent) has).raise
  | neg a ih =>
      obtain ⟨y, inner, rfl⟩ := means_neg.mp h
      exact (ih inner).negate
  | app f a ih =>
      obtain ⟨y, arg, has⟩ := (means_app f).mp h
      exact Means.apply ((ih arg).app has)
  | _ => exact h

theorem Means.pass (h : V.Means e x) : V.Means e.pass x := by
  unfold Expr.pass
  split
  next => exact h.evaluate
  next joined rest found => exact (h.evaluate.terms.joinTerms found).sum.evaluate

theorem Means.passes (h : V.Means e x) (n : ℕ) : V.Means (passes n e) x := by
  induction n generalizing e with
  | zero => exact h
  | succ n ih => exact ih h.pass

theorem Means.simplifyWithin (h : V.Means e x) (n : ℕ) : V.Means (e.simplifyWithin n) x := by
  rw [simplifyWithin_eq_passes]
  exact h.passes n

theorem Means.simplify (h : V.Means e x) : V.Means e.simplify x := h.simplifyWithin _

/-- In every field of characteristic zero and for every reading of powers and heads
that obeys the identities, one pass and any number of passes keep the value of
every expression that has one. -/
theorem simplification_keeps_value (V : Valuation K) (e : Expr) (x : K)
    (has : V.value e = some x) (n : ℕ) :
    V.value e.evaluate = some x ∧ V.value (e.simplifyWithin n) = some x :=
  ⟨Means.evaluate has, Means.simplifyWithin has n⟩

/-- The real value of `(sin x)^2 + (cos x)^2 + x/x` at two. -/
theorem simplification_keeps_real_value :
    let V := RealFunction.valuation fun _ => 2
    let x : Expr := .var "x"
    let e : Expr := .add (.add (.pow (.app .sin x) (.const 2)) (.pow (.app .cos x) (.const 2))) (.div x x)
    V.value e = some 2 ∧ V.value e.evaluate = some 2 ∧ V.value (e.simplifyWithin 64) = some 2 := by
  intro V x e
  have two : V.Means x 2 := (means_var "x").mpr rfl
  have square (f : Fn) (y : ℝ) (has : V.head f 2 = some y) :
      V.Means (.pow (.app f x) (.const 2)) (y ^ 2) :=
    means_pow_int.mpr ⟨y, two.app has, .inl (by norm_num), by norm_cast⟩
  have quotient : V.Means (.div x x) 1 :=
    means_div.mpr ⟨2, 2, two, two, by norm_num, by norm_num⟩
  have has : V.Means e 2 := by
    have sum := ((square .sin _ rfl).add (square .cos _ rfl)).add quotient
    rw [Real.sin_sq_add_cos_sq] at sum
    norm_num at sum
    exact sum
  exact ⟨has, simplification_keeps_value V e 2 has 64⟩

end SymbolicAlgebra.Valuation
