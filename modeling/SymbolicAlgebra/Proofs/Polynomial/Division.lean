import SymbolicAlgebra.Polynomial.Division
import SymbolicAlgebra.Proofs.Loop
import SymbolicAlgebra.Proofs.Polynomial.Product

/-! Long division as a loop over quotient and remainder. Each step moves a multiple of the
divisor from the remainder to the quotient, so the dividend stays the quotient times the
divisor plus the remainder. The leading term of the remainder goes with the step, so the
loop ends, below the degree of the divisor. A multiple of the divisor leaves nothing, and
the divisor is the greatest common divisor of the two. -/

namespace SymbolicAlgebra.Poly
open Polynomial

variable {p q r s d : Poly}

theorem degree_toPolynomial (h : p.isZero = false) :
    p.toPolynomial.degree = (p.degree : WithBot ℕ) := by
  rw [degree_eq_natDegree (toPolynomial_ne_zero h), degree_eq]

theorem eq_zero_of_degree_lt (h : p.toPolynomial.degree < (0 : ℕ)) : p = zero := by
  have vanishes : p.toPolynomial.degree = ⊥ := Nat.WithBot.lt_zero_iff.mp h
  exact toPolynomial_injective (degree_eq_bot.mp vanishes)

/-- One step of the division: a multiple of the divisor moves from the remainder to the
quotient. There is none where the divisor has the higher degree. -/
def divisionStep (divisor : Poly) (state : Poly × Poly) : Option (Poly × Poly) :=
  state.2.degree?.bind fun d =>
    let step := monomial (d - divisor.degree) (state.2.leadingCoeff / divisor.leadingCoeff)
    if divisor.degree ≤ d then some (state.1.add step, state.2.sub (step.mul divisor)) else none

theorem divisionStep_of_le (q : Poly) (r_ne : r.isZero = false) (le : d.degree ≤ r.degree) :
    let step := monomial (r.degree - d.degree) (r.leadingCoeff / d.leadingCoeff)
    divisionStep d (q, r) = some (q.add step, r.sub (step.mul d)) := by
  rw [divisionStep, degree?_eq_some r_ne]
  exact if_pos le

theorem divisionStep_eq_none : divisionStep d (q, r) = none ↔ r = zero ∨ r.degree < d.degree := by
  cases vanishes : r.isZero with
  | true =>
      obtain rfl := eq_zero_of_isZero vanishes
      exact iff_of_true rfl (.inl rfl)
  | false =>
      rw [divisionStep, degree?_eq_some vanishes, or_iff_right (isZero_eq_false_iff.mp vanishes), ← not_le]
      exact ite_eq_right_iff.trans (by simp)

/-- What a step takes from the remainder has no higher degree, so no degree is too large. -/
theorem toPolynomial_step (le : d.degree ≤ p.degree) (c : ℚ) :
    ((monomial (p.degree - d.degree) c).mul d).toPolynomial =
      Polynomial.monomial (p.degree - d.degree) c * d.toPolynomial := by
  have small := p.degree_lt
  have step := degree_monomial_le (p.degree - d.degree) c
  rw [toPolynomial_mul (by omega), toPolynomial_monomial (by omega)]

/-- The leading terms cancel in a step. -/
theorem degree_step (p_ne : p.isZero = false) (d_ne : d.isZero = false) (le : d.degree ≤ p.degree) :
    (p.sub ((monomial (p.degree - d.degree) (p.leadingCoeff / d.leadingCoeff)).mul d)).toPolynomial.degree <
      p.toPolynomial.degree := by
  have ratio_ne := div_ne_zero (leadingCoeff_ne_zero p_ne) (leadingCoeff_ne_zero d_ne)
  rw [toPolynomial_sub, toPolynomial_step le]
  apply degree_sub_lt_left _ (toPolynomial_ne_zero p_ne)
  · rw [leadingCoeff_mul, leadingCoeff_monomial, ← leadingCoeff_eq, ← leadingCoeff_eq,
      div_mul_cancel₀ _ (leadingCoeff_ne_zero d_ne)]
  · rw [Polynomial.degree_mul, Polynomial.degree_monomial _ ratio_ne, degree_toPolynomial p_ne,
      degree_toPolynomial d_ne, ← Nat.cast_add, Nat.sub_add_cancel le]

/-- The bound on the steps stays above the degree of the remainder. -/
theorem endsIn_divideWithin (d_ne : d.isZero = false) (steps : ℕ) (quotient remainder : Poly)
    (enough : remainder.toPolynomial.degree < steps) :
    EndsIn (divisionStep d) (quotient, remainder) (divideWithin d d.degree steps quotient remainder) := by
  induction steps generalizing quotient remainder with
  | zero =>
      obtain rfl := eq_zero_of_degree_lt enough
      exact .stop rfl
  | succ steps ih =>
      cases vanishes : remainder.isZero with
      | true =>
          obtain rfl := eq_zero_of_isZero vanishes
          exact .stop rfl
      | false =>
          rw [divideWithin, degree?_eq_some vanishes]
          dsimp only
          split
          next le =>
            apply EndsIn.next (divisionStep_of_le quotient vanishes le)
            exact ih _ _ ((degree_step vanishes d_ne le).trans_le (Order.le_of_lt_succ enough))
          next above => exact .stop (divisionStep_eq_none.mpr (.inr (Nat.lt_of_not_le above)))

theorem endsIn_divMod (p : Poly) (d_ne : d.isZero = false) :
    EndsIn (divisionStep d) (zero, p) (p.divMod d) := by
  rw [divMod, degree?_eq_some d_ne]
  apply endsIn_divideWithin d_ne
  rw [degree_eq]
  exact degree_le_natDegree.trans_lt (by exact_mod_cast Nat.lt_succ_self _)

/-- The polynomial that is divided, from its quotient and remainder so far. -/
noncomputable def dividend (divisor : Poly) (state : Poly × Poly) : ℚ[X] :=
  state.1.toPolynomial * divisor.toPolynomial + state.2.toPolynomial

/-- A step keeps the dividend. -/
theorem dividend_divisionStep {s t : Poly × Poly} (step : divisionStep d s = some t) :
    dividend d t = dividend d s := by
  obtain ⟨q, r⟩ := s
  cases vanishes : r.isZero with
  | true =>
      rw [divisionStep_eq_none.mpr (.inl (eq_zero_of_isZero vanishes))] at step
      cases step
  | false =>
      by_cases le : d.degree ≤ r.degree
      · have taken := divisionStep_of_le q vanishes le
        obtain rfl := Option.some.inj (step.symm.trans taken)
        have small := r.degree_lt
        simp only [dividend, toPolynomial_add, toPolynomial_sub, toPolynomial_step le,
          toPolynomial_monomial ((Nat.sub_le r.degree d.degree).trans_lt small)]
        ring
      · rw [divisionStep_eq_none.mpr (.inr (Nat.lt_of_not_le le))] at step
        cases step

theorem divMod_identity (p d : Poly) :
    (p.divMod d).1.toPolynomial * d.toPolynomial + (p.divMod d).2.toPolynomial = p.toPolynomial := by
  have start : dividend d (zero, p) = p.toPolynomial := by
    rw [dividend, toPolynomial_zero, zero_mul, zero_add]
  cases vanishes : d.isZero with
  | true =>
      obtain rfl := eq_zero_of_isZero vanishes
      exact start
  | false =>
      have kept := (endsIn_divMod p vanishes).invariant (P := fun s => dividend d s = p.toPolynomial)
      exact (kept fun _ _ step => by rw [dividend_divisionStep step]).mpr start

theorem exactQuotient?_identity {p divisor q : Poly} (exact : p.exactQuotient? divisor = some q) :
    q.toPolynomial * divisor.toPolynomial = p.toPolynomial := by
  unfold exactQuotient? at exact
  dsimp only at exact
  split at exact
  next nothing =>
    obtain rfl := Option.some.inj exact
    rw [← divMod_identity p divisor, eq_zero_of_isZero nothing, toPolynomial_zero, add_zero]
  next => cases exact

theorem degree_lt_iff (d_ne : d.isZero = false) :
    r.toPolynomial.degree < d.toPolynomial.degree ↔ r = zero ∨ r.degree < d.degree := by
  rw [degree_toPolynomial d_ne]
  cases vanishes : r.isZero with
  | true => simp [eq_zero_of_isZero vanishes]
  | false =>
      rw [degree_toPolynomial vanishes, or_iff_right (isZero_eq_false_iff.mp vanishes), Nat.cast_lt]

theorem degree_divMod (d_ne : d.isZero = false) :
    (p.divMod d).2.toPolynomial.degree < d.toPolynomial.degree :=
  (degree_lt_iff d_ne).mpr (divisionStep_eq_none.mp (endsIn_divMod p d_ne).stops)

/-- There is no other quotient and remainder. -/
theorem divMod_eq_iff (d_ne : d.isZero = false) : p.divMod d = (q, r) ↔
    p.toPolynomial = q.toPolynomial * d.toPolynomial + r.toPolynomial ∧
      r.toPolynomial.degree < d.toPolynomial.degree := by
  have identity := divMod_identity p d
  have below : (p.divMod d).2.toPolynomial.degree < d.toPolynomial.degree := degree_divMod d_ne
  constructor
  · intro result
    rw [result] at identity below
    exact ⟨identity.symm, below⟩
  · rintro ⟨same, small⟩
    rw [same] at identity
    have remainder : (p.divMod d).2.toPolynomial - r.toPolynomial = 0 := by
      apply eq_zero_of_dvd_of_degree_lt _ ((degree_sub_le _ _).trans_lt (max_lt below small))
      refine ⟨q.toPolynomial - (p.divMod d).1.toPolynomial, ?_⟩
      rw [mul_sub, sub_eq_sub_iff_add_eq_add, mul_comm, mul_comm d.toPolynomial, ← identity, add_comm]
    have same_remainder := sub_eq_zero.mp remainder
    rw [same_remainder, add_left_inj] at identity
    have quotient := mul_right_cancel₀ (toPolynomial_ne_zero d_ne) identity
    exact Prod.ext (toPolynomial_injective quotient) (toPolynomial_injective same_remainder)

/-- A product is divided exactly. -/
theorem divMod_product (d_ne : d.isZero = false) (product : p.toPolynomial = s.toPolynomial * d.toPolynomial) :
    p.divMod d = (s, zero) := by
  rw [divMod_eq_iff d_ne, toPolynomial_zero, add_zero, degree_zero]
  exact ⟨product, bot_lt_iff_ne_bot.mpr (degree_ne_bot.mpr (toPolynomial_ne_zero d_ne))⟩

theorem exactQuotient?_product (d_ne : d.isZero = false)
    (product : p.toPolynomial = s.toPolynomial * d.toPolynomial) : p.exactQuotient? d = some s := by
  rw [exactQuotient?, divMod_product d_ne product]
  rfl

theorem degree_le_of_exactQuotient? (p_ne : p.isZero = false) (exact : p.exactQuotient? d = some s) :
    s.degree ≤ p.degree := by
  rw [degree_eq, degree_eq]
  apply natDegree_le_of_dvd _ (toPolynomial_ne_zero p_ne)
  exact ⟨d.toPolynomial, (exactQuotient?_identity exact).symm⟩

theorem isZero_exactQuotient? (p_ne : p.isZero = false) (exact : p.exactQuotient? d = some s) :
    s.isZero = false := by
  apply isZero_eq_false
  intro vanishes
  have product := exactQuotient?_identity exact
  rw [vanishes, zero_mul] at product
  exact toPolynomial_ne_zero p_ne product.symm

theorem gcd_product (d_ne : d.isZero = false) (product : p.toPolynomial = s.toPolynomial * d.toPolynomial) :
    p.gcd d = d.monic := by
  rw [gcd, gcdWithin, if_neg (by simp [d_ne]), divMod_product d_ne product, gcdWithin]
  rfl

/-- The quotient times the divisor has no higher degree than the dividend. -/
theorem degree_quotient (p : Poly) (d_ne : d.isZero = false) :
    (p.divMod d).1.degree + d.degree < exponentBound := by
  cases vanishes : (p.divMod d).1.isZero with
  | true =>
      rw [eq_zero_of_isZero vanishes]
      exact (Nat.zero_add _).trans_lt d.degree_lt
  | false =>
      have q_ne := toPolynomial_ne_zero vanishes
      have divisor_ne := toPolynomial_ne_zero d_ne
      have below : (p.divMod d).2.toPolynomial.degree <
          ((p.divMod d).1.toPolynomial * d.toPolynomial).degree := by
        rw [mul_comm]
        exact (degree_divMod d_ne).trans_le (degree_le_mul_left _ q_ne)
      have leading := natDegree_add_eq_left_of_degree_lt below
      rw [divMod_identity, natDegree_mul q_ne divisor_ne, ← degree_eq, ← degree_eq, ← degree_eq] at leading
      exact leading ▸ p.degree_lt

/-- Quotient and remainder make up the dividend again. -/
theorem mul_divMod_add (p : Poly) (d_ne : d.isZero = false) :
    ((p.divMod d).1.mul d).add (p.divMod d).2 = p := by
  apply toPolynomial_injective
  rw [toPolynomial_add, toPolynomial_mul (degree_quotient p d_ne), divMod_identity]

/-- The loop of a division ends in the only quotient and remainder, of which the remainder
has a lower degree than the divisor. Division by zero leaves everything as remainder.
The products are those of the ring of polynomials, or computed where the degree of the
product fits; that of quotient and divisor always does. -/
theorem quotient_and_remainder_are_unique (p d : Poly) :
    p.divMod zero = (zero, p) ∧
      (d ≠ zero →
        EndsIn (divisionStep d) (zero, p) (p.divMod d) ∧
        p = ((p.divMod d).1.mul d).add (p.divMod d).2 ∧
        (∀ q r, p.divMod d = (q, r) ↔
          p.toPolynomial = q.toPolynomial * d.toPolynomial + r.toPolynomial ∧
            (r = zero ∨ r.degree < d.degree)) ∧
        (∀ q, p.exactQuotient? d = some q ↔ p.toPolynomial = q.toPolynomial * d.toPolynomial) ∧
        ∀ q, q.degree + d.degree < exponentBound →
          (∀ r, p.divMod d = (q, r) ↔ p = (q.mul d).add r ∧ (r = zero ∨ r.degree < d.degree)) ∧
          (p.exactQuotient? d = some q ↔ p = q.mul d)) := by
  refine ⟨rfl, fun d_ne => ?_⟩
  have d_ne := isZero_eq_false_iff.mpr d_ne
  have unique (q r : Poly) : p.divMod d = (q, r) ↔
      p.toPolynomial = q.toPolynomial * d.toPolynomial + r.toPolynomial ∧
        (r = zero ∨ r.degree < d.degree) := by
    rw [divMod_eq_iff d_ne, degree_lt_iff d_ne]
  have exact (q : Poly) : p.exactQuotient? d = some q ↔
      p.toPolynomial = q.toPolynomial * d.toPolynomial :=
    ⟨fun found => (exactQuotient?_identity found).symm, exactQuotient?_product d_ne⟩
  refine ⟨endsIn_divMod p d_ne, (mul_divMod_add p d_ne).symm, unique, exact, fun q small => ⟨fun r => ?_, ?_⟩⟩
  · rw [unique, ← toPolynomial_mul small, ← toPolynomial_add, toPolynomial_inj]
  · rw [exact, ← toPolynomial_mul small, toPolynomial_inj]

/-- `2x³ + x` is `2x - 2` times `x² + x + 1`, and `x + 2` remains. -/
theorem cubic_divided_by_quadratic :
    let p := (monomial 3 2).add (monomial 1 1)
    let d := (monomial 2 1).add ((monomial 1 1).add one)
    let q := (monomial 1 2).add (const (-2))
    let r := (monomial 1 1).add (const 2)
    d ≠ zero ∧ q.degree + d.degree < exponentBound ∧ EndsIn (divisionStep d) (zero, p) (q, r) ∧
      p = (q.mul d).add r ∧ p.toPolynomial = q.toPolynomial * d.toPolynomial + r.toPolynomial ∧
      p.exactQuotient? d ≠ some q := by
  intro p d q r
  have d_ne : d ≠ zero := by decide +kernel
  have small : q.degree + d.degree < exponentBound := by decide +kernel
  obtain ⟨-, divided⟩ := quotient_and_remainder_are_unique p d
  obtain ⟨ends, -, unique, -, computed⟩ := divided d_ne
  obtain ⟨only, exact⟩ := computed q small
  have result : p.divMod d = (q, r) := by decide +kernel
  have product_ne : p ≠ q.mul d := by decide +kernel
  exact ⟨d_ne, small, result ▸ ends, ((only r).mp result).1, ((unique q r).mp result).1,
    fun found => product_ne (exact.mp found)⟩

end SymbolicAlgebra.Poly
