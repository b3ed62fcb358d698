import Mathlib.Algebra.Polynomial.FieldDivision
import SymbolicAlgebra.Proofs.Polynomial.Division

/-! The loop of the greatest common divisor. A step replaces two polynomials by the divisor
and the remainder, which have the same common divisors, and the remainder has the lower
degree, so the loop ends; there the common divisors are the divisors of what is left. -/

namespace SymbolicAlgebra.Poly
open Polynomial

variable {p q d s t : Poly} {f : ℚ[X]} {c : Rat}

/-- Divisibility in the ring of polynomials. -/
instance : Dvd Poly := ⟨fun d p => d.toPolynomial ∣ p.toPolynomial⟩

theorem dvd_iff : d ∣ p ↔ d.toPolynomial ∣ p.toPolynomial := .rfl

/-- One step towards the greatest common divisor. There is none where nothing remains. -/
def gcdStep (state : Poly × Poly) : Option (Poly × Poly) :=
  if state.2.isZero then none else some (state.2, (state.1.divMod state.2).2)

def DividesBoth (f : ℚ[X]) (state : Poly × Poly) : Prop :=
  f ∣ state.1.toPolynomial ∧ f ∣ state.2.toPolynomial

/-- A step keeps the common divisors. -/
theorem dividesBoth_gcdStep {s t : Poly × Poly} (step : gcdStep s = some t) :
    DividesBoth f t ↔ DividesBoth f s := by
  rw [gcdStep] at step
  split at step
  next => cases step
  next =>
    obtain rfl := Option.some.inj step
    have identity := divMod_identity s.1 s.2
    rw [DividesBoth, DividesBoth, ← identity, and_comm]
    exact and_congr_left fun divisor => (dvd_add_right (divisor.mul_left _)).symm

/-- The bound on the steps stays above the degree of the second polynomial. -/
theorem endsIn_gcdWithin (steps : ℕ) (p q : Poly) (enough : q.toPolynomial.degree < steps) :
    ∃ last, EndsIn gcdStep (p, q) (last, zero) ∧ gcdWithin steps p q = last.monic := by
  induction steps generalizing p q with
  | zero =>
      obtain rfl := eq_zero_of_degree_lt enough
      exact ⟨p, .stop rfl, rfl⟩
  | succ steps ih =>
      rw [gcdWithin]
      split
      next vanishes =>
        obtain rfl := eq_zero_of_isZero vanishes
        exact ⟨p, .stop rfl, rfl⟩
      next nonzero =>
        have q_ne : q.isZero = false := by simpa using nonzero
        have lower : (p.divMod q).2.toPolynomial.degree < steps :=
          (degree_divMod q_ne).trans_le (Order.le_of_lt_succ enough)
        obtain ⟨last, rest, result⟩ := ih q (p.divMod q).2 lower
        exact ⟨last, .next (if_neg nonzero) rest, result⟩

theorem endsIn_gcd (p q : Poly) : ∃ last, EndsIn gcdStep (p, q) (last, zero) ∧ p.gcd q = last.monic := by
  apply endsIn_gcdWithin
  rw [degree_eq]
  exact degree_le_natDegree.trans_lt (by exact_mod_cast Nat.lt_add_of_pos_right Nat.two_pos)

theorem dvd_monic_iff (f : ℚ[X]) (p : Poly) : f ∣ p.monic.toPolynomial ↔ f ∣ p.toPolynomial := by
  cases vanishes : p.isZero with
  | true => rw [monic, if_pos vanishes]
  | false =>
      have unit : IsUnit (C p.leadingCoeff) :=
        isUnit_C.mpr (isUnit_iff_ne_zero.mpr (leadingCoeff_ne_zero vanishes))
      rw [← leadingCoeff_mul_monic p, unit.dvd_mul_left]

/-- The divisors of the greatest common divisor are the common divisors. -/
theorem dvd_toPolynomial_gcd_iff (f : ℚ[X]) (p q : Poly) :
    f ∣ (p.gcd q).toPolynomial ↔ f ∣ p.toPolynomial ∧ f ∣ q.toPolynomial := by
  obtain ⟨last, ends, result⟩ := endsIn_gcd p q
  have kept : DividesBoth f (last, zero) ↔ DividesBoth f (p, q) :=
    ends.invariant fun _ _ step => dividesBoth_gcdStep step
  rw [result, dvd_monic_iff]
  exact Iff.trans (and_iff_left (dvd_zero f)).symm kept

theorem dvd_gcd_iff : d ∣ p.gcd q ↔ d ∣ p ∧ d ∣ q := by
  rw [dvd_iff, dvd_iff, dvd_iff, dvd_toPolynomial_gcd_iff]

theorem gcd_dvd (p q : Poly) : p.gcd q ∣ p ∧ p.gcd q ∣ q := dvd_gcd_iff.mp (dvd_iff.mpr dvd_rfl)

theorem gcd_eq_zero_iff : p.gcd q = zero ↔ p = zero ∧ q = zero := by
  have vanishes {p : Poly} : p = zero ↔ (0 : ℚ[X]) ∣ p.toPolynomial := by
    rw [zero_dvd_iff, ← toPolynomial_zero]
    exact ⟨congrArg toPolynomial, toPolynomial_injective⟩
  rw [vanishes, dvd_toPolynomial_gcd_iff, vanishes, vanishes]

theorem leadingCoeff_gcd (p q : Poly) : p.gcd q = zero ∨ (p.gcd q).leadingCoeff = 1 := by
  obtain ⟨last, -, result⟩ := endsIn_gcd p q
  rw [result]
  cases vanishes : last.isZero with
  | true => exact .inl (by rw [monic, if_pos vanishes, eq_zero_of_isZero vanishes])
  | false => exact .inr (leadingCoeff_monic vanishes)

/-- Two polynomials with the same divisors are equal if both are monic or zero. -/
theorem eq_of_dvd_iff (same : ∀ f, f ∣ p.toPolynomial ↔ f ∣ q.toPolynomial)
    (left : p = zero ∨ p.leadingCoeff = 1) (right : q = zero ∨ q.leadingCoeff = 1) : p = q := by
  have associated : Associated p.toPolynomial q.toPolynomial :=
    associated_of_dvd_dvd ((same _).mp dvd_rfl) ((same _).mpr dvd_rfl)
  apply toPolynomial_injective
  rcases left with rfl | left
  · rw [toPolynomial_zero, Associated.comm, associated_zero_iff_eq_zero] at associated
    exact associated.symm
  rcases right with rfl | right
  · rwa [toPolynomial_zero, associated_zero_iff_eq_zero] at associated
  · rw [leadingCoeff_eq] at left right
    exact eq_of_monic_of_associated left right associated

/-- A common divisor that is a unit is the greatest one, and monic. -/
theorem gcd_eq_one (prime : IsRelPrime p.toPolynomial q.toPolynomial) : p.gcd q = one := by
  have divides := (dvd_toPolynomial_gcd_iff _ p q).mp dvd_rfl
  have unit : IsUnit (p.gcd q).toPolynomial := prime divides.1 divides.2
  apply eq_of_dvd_iff _ (leadingCoeff_gcd p q) (.inr rfl)
  intro f
  rw [toPolynomial_one]
  exact ⟨fun h => (isUnit_of_dvd_unit h unit).dvd, fun h => (isUnit_of_dvd_one h).dvd⟩

theorem gcd_comm (p q : Poly) : p.gcd q = q.gcd p := by
  apply eq_of_dvd_iff _ (leadingCoeff_gcd p q) (leadingCoeff_gcd q p)
  intro f
  rw [dvd_toPolynomial_gcd_iff, dvd_toPolynomial_gcd_iff, and_comm]

/-- What is left of two polynomials without their greatest common divisor has no common
divisor. -/
theorem isRelPrime_of_exactQuotient? (q_ne : q.isZero = false) (left : p.exactQuotient? (p.gcd q) = some s)
    (right : q.exactQuotient? (p.gcd q) = some t) : IsRelPrime s.toPolynomial t.toPolynomial := by
  have left := exactQuotient?_identity left
  have right := exactQuotient?_identity right
  have gcd_ne : (p.gcd q).toPolynomial ≠ 0 := by
    intro vanishes
    rw [vanishes, mul_zero] at right
    exact toPolynomial_ne_zero q_ne right.symm
  intro f divides divides'
  -- times the greatest common divisor it is still a common divisor of `p` and `q`
  have common : f * (p.gcd q).toPolynomial ∣ (p.gcd q).toPolynomial := by
    rw [dvd_toPolynomial_gcd_iff, ← left, ← right]
    exact ⟨mul_dvd_mul_right divides _, mul_dvd_mul_right divides' _⟩
  apply isUnit_of_dvd_one
  apply (mul_dvd_mul_iff_right gcd_ne).mp
  rwa [one_mul]

/-- Numbers that are taken out of two polynomials are no common divisors. -/
theorem isRelPrime_scale (c_ne : c ≠ 0) (prime : IsRelPrime s.toPolynomial t.toPolynomial) :
    IsRelPrime (s.scale c).toPolynomial (t.scale c).toPolynomial := by
  have unit : IsUnit (C c) := isUnit_C.mpr (isUnit_iff_ne_zero.mpr c_ne)
  rw [toPolynomial_scale, toPolynomial_scale]
  exact (isRelPrime_mul_unit_left unit).mpr prime

theorem exactQuotient?_isSome_iff : (p.exactQuotient? d).isSome = true ↔ d ∣ p := by
  rw [Option.isSome_iff_exists, dvd_iff]
  constructor
  · rintro ⟨s, exact⟩
    exact ⟨s.toPolynomial, by rw [mul_comm, exactQuotient?_identity exact]⟩
  · intro divides
    cases vanishes : d.isZero with
    | true =>
        obtain rfl := eq_zero_of_isZero vanishes
        obtain rfl : p = zero := toPolynomial_injective (zero_dvd_iff.mp divides)
        exact ⟨zero, rfl⟩
    | false =>
        have remainder : (p.divMod d).2.toPolynomial = 0 := by
          apply eq_zero_of_dvd_of_degree_lt _ (degree_divMod vanishes)
          rw [← divMod_identity p d] at divides
          exact (dvd_add_right (dvd_mul_left _ _)).mp divides
        refine ⟨(p.divMod d).1, exactQuotient?_product vanishes ?_⟩
        rw [← divMod_identity p d, remainder, add_zero]

/-- The loop of the greatest common divisor ends, and its result divides both polynomials
exactly, has the common divisors as its divisors and is monic unless both are zero. -/
theorem gcd_is_the_monic_common_divisor (p q : Poly) :
    (∃ last, EndsIn gcdStep (p, q) (last, zero) ∧ p.gcd q = last.monic) ∧
      ((p.exactQuotient? (p.gcd q)).isSome = true ∧ (q.exactQuotient? (p.gcd q)).isSome = true) ∧
      (∀ d, d ∣ p.gcd q ↔ d ∣ p ∧ d ∣ q) ∧ (p.gcd q = zero ↔ p = zero ∧ q = zero) ∧
      (p.gcd q = zero ∨ (p.gcd q).leadingCoeff = 1) ∧ p.gcd q = q.gcd p := by
  have exact := (gcd_dvd p q).imp exactQuotient?_isSome_iff.mpr exactQuotient?_isSome_iff.mpr
  exact ⟨endsIn_gcd p q, exact, fun d => dvd_gcd_iff, gcd_eq_zero_iff, leadingCoeff_gcd p q, gcd_comm p q⟩

end SymbolicAlgebra.Poly
