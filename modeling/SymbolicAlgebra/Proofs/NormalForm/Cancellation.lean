import Mathlib.Algebra.Polynomial.Roots
import SymbolicAlgebra.Proofs.Valuation.Cancellation
import SymbolicAlgebra.Proofs.Valuation.Real

/-! The denominator of a quotient in lowest terms is never split into a product with
coefficient zero. Otherwise its value would be zero at every real point, and only
the zero polynomial has infinitely many roots. -/

namespace SymbolicAlgebra.Expr
open Polynomial SymbolicAlgebra.Valuation

variable {n m e : Expr} {q : Poly} {terms : Expr × Expr}

theorem exists_value_ne_zero (name : String) (q_ne : q.isZero = false) :
    ∃ V : Valuation ℝ, V.polyValue name q ≠ 0 := by
  by_contra vanishes
  have roots : ∀ r : ℝ, (q.toPolynomial.map (algebraMap ℚ ℝ)).eval r = 0 := by
    intro r
    rw [eval_map_algebraMap]
    by_contra value_ne
    exact vanishes ⟨RealFunction.valuation fun _ => r, value_ne⟩
  have q_zero : q.toPolynomial.map (algebraMap ℚ ℝ) = 0 := Polynomial.funext (by simpa using roots)
  exact Poly.toPolynomial_ne_zero q_ne 
    ((Polynomial.map_eq_zero_iff (algebraMap ℚ ℝ).injective).mp q_zero)

theorem splitQuotient_ne_zero {V : Valuation ℝ} {x : ℝ} (h : V.Means e x) (x_ne : x ≠ 0) :
    e.splitQuotient.1 ≠ 0 := by
  obtain ⟨y, -, rfl⟩ := h.splitQuotient
  exact Rat.cast_ne_zero.mp (left_ne_zero_of_mul x_ne)

theorem splitQuotient_of_cancelGcd? (cancelled : cancelGcd? n m = some terms) :
    terms.2.splitQuotient.1 ≠ 0 := by
  obtain ⟨name, p, q, -, left, right, q_ne, -⟩ := cancelGcd?_eq_some cancelled
  obtain ⟨V, value_ne⟩ := exists_value_ne_zero name q_ne
  obtain ⟨x, y, -, denominator, y_ne, -⟩ := meansQuotient_cancelGcd?
    (means_of_ofExpr? left) (means_of_ofExpr? right) value_ne cancelled
  exact splitQuotient_ne_zero denominator y_ne

end SymbolicAlgebra.Expr
