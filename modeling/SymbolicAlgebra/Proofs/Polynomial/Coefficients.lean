import Mathlib.Algebra.Order.Antidiag.Nat
import SymbolicAlgebra.Proofs.Polynomial.Product

/-! A polynomial as its coefficients. The terms are the coefficients that are not zero, so
the last of them has the degree, and each operation has its law for a coefficient of the
result. The coefficients of a product are those of the ring as long as its degree fits;
otherwise the products of terms beyond the bound are added at the bottom. -/

namespace SymbolicAlgebra.Poly

variable {p q : Poly} {n : ℕ}

theorem degree_le_of_coeff {limit : ℕ} (h : ∀ n, limit < n → p.coeff n = 0) : p.degree ≤ limit := by
  rw [degree_eq, Polynomial.natDegree_le_iff_coeff_eq_zero]
  intro n above
  rw [coeff_toPolynomial, h n above]

theorem coeff_eq_zero_of_degree_lt (above : p.degree < n) : p.coeff n = 0 := by
  rw [degree_eq] at above
  rw [← coeff_toPolynomial, Polynomial.coeff_eq_zero_of_natDegree_lt above]

theorem coeff_degree (p : Poly) : p.coeff p.degree = p.leadingCoeff := by
  rw [← coeff_toPolynomial, degree_eq, leadingCoeff_eq, Polynomial.leadingCoeff]

theorem degree?_eq_none_iff : p.degree? = none ↔ p = zero := by
  cases vanishes : p.isZero with
  | true => exact iff_of_true (eq_zero_of_isZero vanishes ▸ rfl) (eq_zero_of_isZero vanishes)
  | false => exact iff_of_false (by simp [degree?_eq_some vanishes]) (isZero_eq_false_iff.mp vanishes)

/-- The degree is the last one with a coefficient. -/
theorem degree?_eq_some_iff : p.degree? = some n ↔ p.coeff n ≠ 0 ∧ ∀ m, n < m → p.coeff m = 0 := by
  cases vanishes : p.isZero with
  | true =>
      rw [eq_zero_of_isZero vanishes]
      exact iff_of_false nofun fun ⟨present, _⟩ => present (coeff_zero n)
  | false =>
      rw [degree?_eq_some vanishes, Option.some.injEq]
      constructor
      · rintro rfl
        refine ⟨?_, fun m above => coeff_eq_zero_of_degree_lt above⟩
        rw [coeff_degree]
        exact leadingCoeff_ne_zero vanishes
      · rintro ⟨present, above⟩
        apply le_antisymm (degree_le_of_coeff above)
        by_contra below
        exact present (coeff_eq_zero_of_degree_lt (not_le.mp below))

theorem eq_iff_coeff : p = q ↔ ∀ n, p.coeff n = q.coeff n := by
  constructor
  · rintro rfl _
    rfl
  · exact eq_of_coeff

theorem coeff_monomial {d : ℕ} (small : d < exponentBound) (c : Rat) (n : ℕ) :
    (monomial d c).coeff n = if d = n then c else 0 := by
  rw [← coeff_toPolynomial, toPolynomial_monomial small, Polynomial.coeff_monomial]

@[simp] theorem coeff_add (p q : Poly) (n : ℕ) : (p.add q).coeff n = p.coeff n + q.coeff n := by
  rw [← coeff_toPolynomial, toPolynomial_add, Polynomial.coeff_add, coeff_toPolynomial,
    coeff_toPolynomial]

@[simp] theorem coeff_scale (p : Poly) (k : ℚ) (n : ℕ) : (p.scale k).coeff n = k * p.coeff n := by
  rw [← coeff_toPolynomial, toPolynomial_scale, Polynomial.coeff_C_mul, coeff_toPolynomial]

@[simp] theorem coeff_neg (p : Poly) (n : ℕ) : p.neg.coeff n = -p.coeff n := by
  rw [neg, coeff_scale, neg_one_mul]

@[simp] theorem coeff_sub (p q : Poly) (n : ℕ) : (p.sub q).coeff n = p.coeff n - q.coeff n := by
  rw [sub, coeff_add, coeff_neg, sub_eq_add_neg]

/-- The sum of the products of coefficients whose degrees come to the degree. -/
def convolution (p q : Poly) (n : ℕ) : ℚ := ∑ i ∈ Finset.range (n + 1), p.coeff i * q.coeff (n - i)

theorem convolution_eq (p q : Poly) (n : ℕ) :
    convolution p q n = (p.toPolynomial * q.toPolynomial).coeff n := by
  rw [Polynomial.coeff_mul,
    Finset.Nat.sum_antidiagonal_eq_sum_range_succ fun i j => p.toPolynomial.coeff i * q.toPolynomial.coeff j]
  simp only [coeff_toPolynomial]
  rfl

theorem convolution_of_lt (above : p.degree + q.degree < n) : convolution p q n = 0 := by
  rw [degree_eq, degree_eq] at above
  rw [convolution_eq, Polynomial.coeff_eq_zero_of_natDegree_lt (Polynomial.natDegree_mul_le.trans_lt above)]

/-- The leading coefficients alone come to the sum of the degrees. -/
theorem convolution_degree (p q : Poly) :
    convolution p q (p.degree + q.degree) = p.leadingCoeff * q.leadingCoeff := by
  rw [convolution_eq, degree_eq, degree_eq, Polynomial.coeff_mul_degree_add_degree, leadingCoeff_eq,
    leadingCoeff_eq]

/-- Below the bound a term is found at its degree, or comes from one bound higher. -/
theorem coeff_wrapped {terms : List (ℕ × ℚ)} (below : ∀ t ∈ terms, t.1 < exponentBound + exponentBound)
    (small : n < exponentBound) : (sumOfTerms (terms.map wrapTerm)).coeff n =
      (sumOfTerms terms).coeff n + (sumOfTerms terms).coeff (n + exponentBound) := by
  induction terms with
  | nil => exact (add_zero 0).symm
  | cons t rest ih =>
      obtain ⟨first, others⟩ := List.forall_mem_cons.mp below
      have single : (if wrap t.1 = n then t.2 else 0) =
          (if t.1 = n then t.2 else 0) + if t.1 = n + exponentBound then t.2 else 0 := by
        rcases Nat.lt_or_ge t.1 exponentBound with fits | large
        · rw [wrap_eq fits, if_neg (by omega : t.1 ≠ n + exponentBound), add_zero]
        · have wrapped : wrap t.1 = t.1 - exponentBound := by
            rw [wrap, Nat.mod_eq_sub_mod large, Nat.mod_eq_of_lt (by omega)]
          have same : t.1 - exponentBound = n ↔ t.1 = n + exponentBound := Nat.sub_eq_iff_eq_add large
          rw [wrapped, if_neg (by omega : t.1 ≠ n), zero_add, if_congr same rfl rfl]
      rw [List.map_cons, sumOfTerms_cons, sumOfTerms_cons, Polynomial.coeff_add, Polynomial.coeff_add,
        Polynomial.coeff_add, ih others, wrapTerm, Polynomial.coeff_monomial, Polynomial.coeff_monomial,
        Polynomial.coeff_monomial, single]
      ring

/-- The products of terms whose degrees come to the degree are summed, and those which come to
it when they wrap around. -/
theorem coeff_mul (p q : Poly) (small : n < exponentBound) :
    (p.mul q).coeff n = convolution p q n + convolution p q (n + exponentBound) := by
  have below : ∀ t ∈ products p.terms q.terms, t.1 < exponentBound + exponentBound := fun t member =>
    (degree_le_of_mem_products member).trans_lt (Nat.add_lt_add p.degree_lt q.degree_lt)
  rw [← coeff_toPolynomial, toPolynomial_mul_eq, coeff_wrapped below small, sumOfTerms_products,
    convolution_eq, convolution_eq]
  rfl

/-- The coefficients of a product are right just if no term of it wraps around. -/
theorem coeff_mul_eq_convolution_iff (p q : Poly) :
    (∀ n < exponentBound, (p.mul q).coeff n = convolution p q n) ↔
      p = zero ∨ q = zero ∨ p.degree + q.degree < exponentBound := by
  have wrapped (n : ℕ) (small : n < exponentBound) :
      (p.mul q).coeff n = convolution p q n ↔ convolution p q (n + exponentBound) = 0 := by
    rw [coeff_mul p q small, add_eq_left]
  constructor
  · intro right
    by_contra large
    simp only [not_or, not_lt] at large
    obtain ⟨p_ne, q_ne, large⟩ := large
    have small : p.degree + q.degree - exponentBound < exponentBound := by
      have first := p.degree_lt
      have second := q.degree_lt
      omega
    -- the leading term of the product is the one that is lost
    have lost := (wrapped _ small).mp (right _ small)
    rw [Nat.sub_add_cancel large, convolution_degree] at lost
    exact mul_ne_zero (leadingCoeff_ne_zero (isZero_eq_false_iff.mpr p_ne))
      (leadingCoeff_ne_zero (isZero_eq_false_iff.mpr q_ne)) lost
  · intro fits n small
    rw [wrapped n small]
    rcases fits with rfl | rfl | fits
    · rw [convolution_eq, toPolynomial_zero, zero_mul, Polynomial.coeff_zero]
    · rw [convolution_eq, toPolynomial_zero, mul_zero, Polynomial.coeff_zero]
    · exact convolution_of_lt (fits.trans_le (Nat.le_add_left _ _))

/-- No zero is kept among the terms, so the degree and equality are those of the coefficients,
and these are computed as in the ring of polynomials. A product has the coefficients of the
ring as long as its degree fits into a machine word; terms beyond that are added at the
bottom. -/
theorem polynomials_are_their_coefficients (p q : Poly) (k : ℚ) :
    (∀ n c, (n, c) ∈ p.terms ↔ p.coeff n = c ∧ c ≠ 0) ∧
      (p.degree? = none ↔ ∀ n, p.coeff n = 0) ∧
      (∀ n, p.degree? = some n ↔ p.coeff n ≠ 0 ∧ ∀ m, n < m → p.coeff m = 0) ∧
      (p = q ↔ ∀ n, p.coeff n = q.coeff n) ∧
      (∀ n, (p.add q).coeff n = p.coeff n + q.coeff n ∧
        (p.sub q).coeff n = p.coeff n - q.coeff n ∧
        p.neg.coeff n = -p.coeff n ∧
        (p.scale k).coeff n = k * p.coeff n) ∧
      (∀ n < exponentBound,
        (p.mul q).coeff n = convolution p q n + convolution p q (n + exponentBound)) ∧
      ((∀ n < exponentBound, (p.mul q).coeff n = convolution p q n) ↔
        p = zero ∨ q = zero ∨ p.degree + q.degree < exponentBound) := by
  refine ⟨fun n c => mem_terms_iff, ?_, fun n => degree?_eq_some_iff, eq_iff_coeff, fun n => ?_,
    fun n small => coeff_mul p q small, coeff_mul_eq_convolution_iff p q⟩
  · rw [degree?_eq_none_iff, eq_iff_coeff]
    rfl
  · exact ⟨coeff_add p q n, coeff_sub p q n, coeff_neg p n, coeff_scale p k n⟩

/-- The square of `x ^ 2 ^ 63` is taken for one. -/
example : (monomial 9223372036854775808 1).mul (monomial 9223372036854775808 1) = one := by decide +kernel

end SymbolicAlgebra.Poly
