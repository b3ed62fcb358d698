import SymbolicAlgebra.Proofs.NormalForm
import SymbolicAlgebra.Proofs.Valuation.FactoredProduct
import SymbolicAlgebra.Proofs.Valuation.Polynomial
import SymbolicAlgebra.Proofs.Valuation.Simplification

/-! Cancelling a common divisor of two polynomials keeps the value of their quotient
wherever the quotient has one: a divisor that is not zero there has no factor that
is zero there. -/

namespace SymbolicAlgebra.Valuation
open SymbolicAlgebra.Expr

variable {K : Type*} [Field K] [DecidableEq K] {V : Valuation K}
variable {n m e : Expr} {l : List Expr} {t : Exponents} {x y z : K}

/-- Two expressions that have a quotient, and its value. -/
def MeansQuotient (V : Valuation K) (terms : Expr × Expr) (z : K) : Prop :=
  ∃ x y, V.Means terms.1 x ∧ V.Means terms.2 y ∧ y ≠ 0 ∧ x / y = z

theorem Means.divisorPower (h : V.Means e x) :
    V.Means (.pow e.divisorPower.1 (const e.divisorPower.2)) x := by
  unfold Expr.divisorPower
  split
  next => exact h
  next => exact h.pow ((means_const 1).mpr Rat.cast_one) (V.power_one x)

variable [CharZero K]

theorem meansQuotient_lowestTerms? {name : String} {p q d : Poly} {terms : Expr × Expr}
    (q_ne : V.polyValue name q ≠ 0) (lowest : lowestTerms? name p q d = some terms) :
    V.MeansQuotient terms (V.polyValue name p / V.polyValue name q) := by
  obtain ⟨p', left, tail⟩ := Option.bind_eq_some_iff.mp lowest
  obtain ⟨q', right, rfl⟩ := Option.map_eq_some_iff.mp tail
  have numerator : V.polyValue name p' * V.polyValue name d = V.polyValue name p :=
    polyValue_exactQuotient? left
  have denominator : V.polyValue name q' * V.polyValue name d = V.polyValue name q :=
    polyValue_exactQuotient? right
  have monicLeft : p'.leadingCoeff * V.polyValue name p'.monic = V.polyValue name p' :=
    polyValue_monic
  have monicRight : q'.leadingCoeff * V.polyValue name q'.monic = V.polyValue name q' :=
    polyValue_monic
  obtain ⟨q'_ne, d_ne⟩ := mul_ne_zero_iff.mp (denominator ▸ q_ne)
  obtain ⟨lead_ne, monic_ne⟩ := mul_ne_zero_iff.mp (monicRight ▸ q'_ne)
  have scaled : V.Means
      (if p'.leadingCoeff / q'.leadingCoeff = 1 then (p'.monic.toExpr name).simplify
        else (const (p'.leadingCoeff / q'.leadingCoeff)).times (p'.monic.toExpr name).simplify)
      (p'.leadingCoeff / q'.leadingCoeff * V.polyValue name p'.monic) := by
    split
    next one =>
      rw [← Rat.cast_div, one, Rat.cast_one, one_mul]
      exact means_toExpr.simplify
    next => exact Means.times ((means_const _).mpr (Rat.cast_div _ _)) means_toExpr.simplify
  refine ⟨_, _, scaled, means_toExpr.simplify, monic_ne, ?_⟩
  rw [← numerator, ← denominator, ← monicLeft, ← monicRight]
  field_simp

theorem meansQuotient_cancelGcd? {terms : Expr × Expr} (h : V.Means n x) (k : V.Means m y)
    (y_ne : y ≠ 0) (cancelled : cancelGcd? n m = some terms) : V.MeansQuotient terms (x / y) := by
  obtain ⟨name, p, q, -, left, right, -, steps⟩ := cancelGcd?_eq_some cancelled
  obtain rfl := h.unique (means_of_ofExpr? left)
  obtain rfl := k.unique (means_of_ofExpr? right)
  rcases steps with ⟨vanishing, rfl⟩ | ⟨-, lowest⟩
  · exact ⟨0, 1, means_zero.mpr rfl, means_one.mpr rfl, one_ne_zero,
      by rw [polyValue_of_isZero vanishing, zero_div, zero_div]⟩
  · exact meansQuotient_lowestTerms? y_ne lowest

theorem MeansProduct.divisorPowers (h : V.MeansProduct (listedPowers t) x)
    (k : V.MeansProduct l y) :
    V.MeansProduct (listedPowers (l.foldl (fun exponents f =>
      Tally.add cmp f.divisorPower.1 f.divisorPower.2 exponents) t)) (x * y) := by
  induction l generalizing t x y with
  | nil => simpa [← k.2] using h
  | cons f rest ih =>
      obtain ⟨u, v, first, others, rfl⟩ := meansProduct_cons.mp k
      rw [← mul_assoc]
      exact ih (h.addExponent first.divisorPower) others

theorem MeansQuotient.quotient (h : V.MeansQuotient (n, m) z) : V.Means (n.quotient m) z := by
  obtain ⟨x, y, numerator, denominator, y_ne, rfl⟩ := h
  rw [Expr.quotient]
  split
  next one =>
    rw [(isOne_iff m).mp one, means_one] at denominator
    rwa [← denominator, div_one]
  next =>
    dsimp only
    split
    next => exact means_div.mpr ⟨x, y, numerator, denominator, y_ne, rfl⟩
    next =>
      obtain ⟨w, factors, rfl⟩ := denominator.splitQuotient
      have product := means_exponents 1 (meansProduct_nil.divisorPowers (t := []) factors)
      rw [Rat.cast_one, one_mul, one_mul] at product
      have inverse := Means.raise (product.pow ((means_const (-1)).mpr (by simp))
        (V.power_inv (right_ne_zero_of_mul y_ne)))
      have coefficient : V.Means (const m.splitQuotient.1⁻¹) (m.splitQuotient.1 : K)⁻¹ :=
        (means_const _).mpr (Rat.cast_inv _)
      have shape : (m.splitQuotient.1 : K)⁻¹ * x * w⁻¹ = x / (m.splitQuotient.1 * w) := by
        rw [div_eq_mul_inv, mul_inv]
        ring
      exact shape ▸ (coefficient.times numerator).times inverse

theorem MeansFactored.cancelled? {p : FactoredProduct} (h : V.MeansFactored p z)
    (plain : p.symbolic = []) (cancelled : p.cancelled? = some e) : V.Means e z := by
  obtain ⟨x, y, numerator, denominator, y_ne, rfl⟩ := h.quotient plain
  obtain ⟨terms, lowest, rfl⟩ := FactoredProduct.cancelled?_eq_some cancelled
  exact (meansQuotient_cancelGcd? numerator denominator y_ne lowest).quotient

end SymbolicAlgebra.Valuation
