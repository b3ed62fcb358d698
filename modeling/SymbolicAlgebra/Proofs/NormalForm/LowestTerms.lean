import SymbolicAlgebra.Proofs.NormalForm.Cancellation
import SymbolicAlgebra.Proofs.NormalForm.Quotient
import SymbolicAlgebra.Proofs.Polynomial.CommonDivisor

/-! A quotient of polynomials after its greatest common divisor is cancelled. Numerator and
denominator can be read again, as polynomials of the same quotient that have no common
divisor any more. -/

namespace SymbolicAlgebra.Expr
open SymbolicAlgebra.Poly (simplified)

variable {name : String} {p q d : Poly} {terms : Expr × Expr}

/-- Both quotients are divided by the leading coefficient of the denominator. -/
theorem lowestTerms?_eq_some (p_ne : p.isZero = false) (q_ne : q.isZero = false)
    (lowest : lowestTerms? name p q d = some terms) :
    ∃ s t, p.exactQuotient? d = some s ∧ q.exactQuotient? d = some t ∧
      terms = ((s.scale t.leadingCoeff⁻¹).simplified name, t.monic.simplified name) := by
  obtain ⟨s, left, tail⟩ := Option.bind_eq_some_iff.mp lowest
  obtain ⟨t, right, -⟩ := Option.map_eq_some_iff.mp tail
  have s_ne := Poly.isZero_exactQuotient? p_ne left
  have t_ne := Poly.isZero_exactQuotient? q_ne right
  have written := lowestTerms?_of_exactQuotient? name left right s_ne t_ne
  exact ⟨s, t, left, right, Option.some.inj (lowest.symm.trans written)⟩

/-- Two expressions that are read as polynomials of the quotient of `p` and `q`, without a
common divisor and with a monic denominator. -/
def ReadInLowestTerms (name : String) (p q : Poly) (n m : Expr) : Prop :=
  ∃ s t, Poly.ofExpr? name n = some s ∧ Poly.ofExpr? name m = some t ∧ s.mul q = t.mul p ∧
    t.leadingCoeff = 1 ∧ s.gcd t = Poly.one

theorem readInLowestTerms_zero (name : String) (q : Poly) : ReadInLowestTerms name .zero q zero one := by
  refine ⟨_, _, Poly.ofExpr?_const name 0, Poly.ofExpr?_const name 1, rfl, rfl, ?_⟩
  · apply Poly.gcd_eq_one
    rw [Poly.toPolynomial_const, Poly.toPolynomial_const, map_one]
    exact isRelPrime_one_right

theorem readInLowestTerms (p_ne : p.isZero = false) (q_ne : q.isZero = false)
    (p_small : p.degree ≤ Poly.degreeLimit) (q_small : q.degree ≤ Poly.degreeLimit)
    (lowest : lowestTerms? name p q (p.gcd q) = some terms) :
    ReadInLowestTerms name p q terms.1 terms.2 := by
  obtain ⟨s, t, left, right, rfl⟩ := lowestTerms?_eq_some p_ne q_ne lowest
  have t_ne := Poly.isZero_exactQuotient? q_ne right
  have monic := Poly.monic_eq_scale t_ne
  have inverse_ne := inv_ne_zero (Poly.leadingCoeff_ne_zero t_ne)
  have s_small : (s.scale t.leadingCoeff⁻¹).degree ≤ Poly.degreeLimit := by
    rw [Poly.degree_scale s inverse_ne]
    exact (Poly.degree_le_of_exactQuotient? p_ne left).trans p_small
  have t_small : t.monic.degree ≤ Poly.degreeLimit := by
    rw [Poly.degree_monic]
    exact (Poly.degree_le_of_exactQuotient? q_ne right).trans q_small
  refine ⟨_, _, Poly.ofExpr?_simplified name s_small, Poly.ofExpr?_simplified name t_small, ?_,
    Poly.leadingCoeff_monic t_ne, ?_⟩
  · have left := Poly.exactQuotient?_identity left
    have right := Poly.exactQuotient?_identity right
    have fits {u v : Poly} (u_small : u.degree ≤ Poly.degreeLimit) (v_small : v.degree ≤ Poly.degreeLimit) :
        u.degree + v.degree < Poly.exponentBound :=
      (Nat.add_le_add u_small v_small).trans_lt (by decide)
    apply Poly.toPolynomial_injective
    rw [Poly.toPolynomial_mul (fits s_small q_small), Poly.toPolynomial_mul (fits t_small p_small), monic,
      Poly.toPolynomial_scale, Poly.toPolynomial_scale, ← left, ← right]
    ring
  · rw [monic]
    apply Poly.gcd_eq_one
    exact Poly.isRelPrime_scale inverse_ne (Poly.isRelPrime_of_exactQuotient? q_ne left right)

/-- Where a quotient is cancelled, it is a quotient of polynomials in its only symbol, and what
is left are polynomials of the same quotient in lowest terms. The denominator is monic, so
it is not zero, and its coefficient as a product is not zero either. -/
theorem cancelled_quotient_is_in_lowest_terms (numerator denominator n d : Expr)
    (cancelled : cancelGcd? numerator denominator = some (n, d)) :
    ∃ name p q, (div numerator denominator).symbols = [name] ∧
      Poly.ofExpr? name numerator = some p ∧ Poly.ofExpr? name denominator = some q ∧
      q ≠ Poly.zero ∧ ReadInLowestTerms name p q n d ∧ d ≠ zero ∧ d.splitQuotient.1 ≠ 0 := by
  obtain ⟨name, p, q, only, left, right, q_ne, steps⟩ := cancelGcd?_eq_some cancelled
  have split_ne : d.splitQuotient.1 ≠ 0 := splitQuotient_of_cancelGcd? cancelled
  have d_ne : d ≠ zero := by
    rintro rfl
    exact split_ne rfl
  refine ⟨name, p, q, only, left, right, Poly.isZero_eq_false_iff.mp q_ne, ?_, d_ne, split_ne⟩
  rcases steps with ⟨vanishes, terms⟩ | ⟨p_ne, lowest⟩
  · obtain ⟨rfl, rfl⟩ := Prod.mk.inj terms
    rw [Poly.eq_zero_of_isZero vanishes]
    exact readInLowestTerms_zero name q
  · exact readInLowestTerms p_ne q_ne (Poly.degree_le_of_ofExpr? left) (Poly.degree_le_of_ofExpr? right)
      lowest

/-- `(2x² - 2) / (4x² + 8x + 4)` is `(x/2 - 1/2) / (x + 1)`. -/
theorem quadratics_in_lowest_terms :
    let x := var "x"
    let numerator := sub (mul (const 2) (pow x (const 2))) (const 2)
    let denominator := add (add (mul (const 4) (pow x (const 2))) (mul (const 8) x)) (const 4)
    let n := add (mul (const (1 / 2)) x) (const (-1 / 2))
    let d := add x one
    cancelGcd? numerator denominator = some (n, d) ∧
      ∃ p q, Poly.ofExpr? "x" numerator = some p ∧ Poly.ofExpr? "x" denominator = some q ∧
        ReadInLowestTerms "x" p q n d ∧ d.splitQuotient.1 ≠ 0 := by
  intro x numerator denominator n d
  have cancelled : cancelGcd? numerator denominator = some (n, d) := by decide +kernel
  obtain ⟨name, p, q, only, left, right, -, lowest, -, split_ne⟩ :=
    cancelled_quotient_is_in_lowest_terms numerator denominator n d cancelled
  obtain rfl : name = "x" := (List.singleton_inj.mp only).symm
  exact ⟨cancelled, p, q, left, right, lowest, split_ne⟩

end SymbolicAlgebra.Expr
