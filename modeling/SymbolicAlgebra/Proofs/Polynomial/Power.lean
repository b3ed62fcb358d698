import SymbolicAlgebra.Polynomial.Expression
import SymbolicAlgebra.Proofs.Loop
import SymbolicAlgebra.Proofs.Polynomial.Product

/-! Powers as a loop over the bits of the exponent. What has been multiplied together, times
the running square to the exponent that is left, is the same after every step, so the loop
ends in the product of as many copies as the exponent says. Leading coefficients never
cancel, so the degrees of the copies are added, as long as the sum fits into a machine
word. -/

namespace SymbolicAlgebra.Poly

variable {p : Poly} {m n : ℕ}

/-- A power that is being taken. -/
structure Squaring where
  product : Poly
  square : Poly
  exponent : ℕ
  deriving DecidableEq

/-- One step: an odd exponent moves the square into the product, and the exponent is halved.
The last square that is needed is not squared again. -/
def powStep (s : Squaring) : Option Squaring :=
  if s.exponent = 0 then none
  else some {
    product := if s.exponent % 2 = 1 then s.product.mul s.square else s.product
    square := if s.exponent / 2 = 0 then s.square else s.square.mul s.square
    exponent := s.exponent / 2 }

/-- The power that a state comes to. -/
def Squaring.power (s : Squaring) : Poly := s.product.mul (s.square.pow s.exponent)

theorem powStep_eq_none {s : Squaring} : powStep s = none ↔ s.exponent = 0 :=
  ite_eq_left_iff.trans (by simp)

theorem exponent_powStep {s t : Squaring} (step : powStep s = some t) : t.exponent < s.exponent := by
  rw [powStep] at step
  split at step
  next => cases step
  next positive =>
    obtain rfl := Option.some.inj step
    exact Nat.div_lt_self (Nat.pos_of_ne_zero positive) Nat.one_lt_two

/-- A step keeps the power. -/
theorem power_powStep {s t : Squaring} (step : powStep s = some t) : t.power = s.power := by
  rw [powStep] at step
  split at step
  next => cases step
  next =>
    obtain rfl := Option.some.inj step
    -- without another squaring there is no exponent left, so it would make no difference
    have squared : (if s.exponent / 2 = 0 then s.square else s.square.mul s.square).pow (s.exponent / 2) =
        (s.square.mul s.square).pow (s.exponent / 2) := by
      split
      next last => rw [last, pow, pow, if_pos rfl, if_pos rfl]
      next => rfl
    have halved : s.square.residue ^ s.exponent = s.square.residue ^ (s.exponent % 2) *
        (s.square.residue * s.square.residue) ^ (s.exponent / 2) := by
      rw [← sq, ← pow_mul, ← pow_add, Nat.mod_add_div]
    apply residue_injective
    simp only [Squaring.power, squared, residue_mul, residue_pow]
    rw [halved]
    split
    next odd => rw [odd, pow_one, residue_mul, mul_assoc]
    next even => rw [Nat.mod_two_ne_one.mp even, pow_zero, one_mul]

theorem power_of_exponent_zero {s : Squaring} (h : s.exponent = 0) : s.power = s.product := by
  apply residue_injective
  rw [Squaring.power, h, residue_mul, residue_pow, pow_zero, mul_one]

theorem power_start (p : Poly) (n : ℕ) : (Squaring.mk one p n).power = p.pow n := by
  apply residue_injective
  rw [Squaring.power, residue_mul, residue_one, one_mul]

/-- The exponent shrinks in every step, and at zero the product is the power. -/
theorem endsIn_power (s : Squaring) : ∃ square, EndsIn powStep s ⟨s.power, square, 0⟩ := by
  induction left : s.exponent using Nat.strong_induction_on generalizing s with
  | _ n ih =>
      subst left
      cases step : powStep s with
      | none =>
          have nothing := powStep_eq_none.mp step
          refine ⟨s.square, ?_⟩
          rw [power_of_exponent_zero nothing, ← nothing]
          exact .stop step
      | some t =>
          obtain ⟨square, rest⟩ := ih t.exponent (exponent_powStep step) t rfl
          rw [power_powStep step] at rest
          exact ⟨square, .next step rest⟩

theorem pow_eq_foldl (p : Poly) (n : ℕ) : p.pow n = (List.replicate n p).foldl mul one := by
  apply residue_injective
  rw [residue_pow]
  induction n with
  | zero => rw [pow_zero, List.replicate_zero, List.foldl_nil, residue_one]
  | succ n ih =>
      rw [List.replicate_succ', List.foldl_append, List.foldl_cons, List.foldl_nil, residue_mul, ← ih,
        pow_succ]

theorem pow_mul_pow (p : Poly) (m n : ℕ) : (p.pow m).mul (p.pow n) = p.pow (m + n) := by
  apply residue_injective
  rw [residue_mul, residue_pow, residue_pow, residue_pow, pow_add]

section Degree
variable (small : n * p.degree < exponentBound)
include small

theorem isZero_pow (p_ne : p.isZero = false) : (p.pow n).isZero = false := by
  apply isZero_eq_false
  rw [toPolynomial_pow small]
  exact pow_ne_zero n (toPolynomial_ne_zero p_ne)

theorem degree_pow : (p.pow n).degree = n * p.degree := by
  rw [degree_eq, toPolynomial_pow small, Polynomial.natDegree_pow, degree_eq]

end Degree

/-- The degree is multiplied by the exponent just if the product fits into a machine word. -/
theorem degree?_pow_iff (p_ne : p ≠ zero) :
    (p.pow n).degree? = some (n * p.degree) ↔ n * p.degree < exponentBound := by
  constructor
  · intro degree
    have exact : (p.pow n).degree = n * p.degree := by rw [Poly.degree, degree, Option.getD_some]
    exact exact ▸ (p.pow n).degree_lt
  · intro small
    rw [degree?_eq_some (isZero_pow small (isZero_eq_false_iff.mpr p_ne)), degree_pow small]

/-- The bound is checked before the power is taken, on the degree that the power has then. -/
theorem boundedPow?_eq_some {q : Poly} : p.boundedPow? n = some q ↔
    q = p.pow n ∧ q.degree = n * p.degree ∧ q.degree ≤ degreeLimit := by
  rw [boundedPow?, Option.ite_none_right_eq_some, Option.some_inj, Nat.mul_comm]
  constructor
  · rintro ⟨within, rfl⟩
    have degree := degree_pow (within.trans_lt (by decide))
    exact ⟨rfl, degree, degree.trans_le within⟩
  · rintro ⟨rfl, degree, within⟩
    exact ⟨degree ▸ within, rfl⟩

/-- Repeated squaring ends in the product of as many copies as the exponent says, so exponents
are added when powers are multiplied, and the degree is multiplied by the exponent as long
as it fits into a machine word. Where a power is read, the bound on that degree is checked
first. -/
theorem repeated_squaring_is_repeated_multiplication (p : Poly) (m n : ℕ) :
    (∃ square, EndsIn powStep ⟨one, p, n⟩ ⟨p.pow n, square, 0⟩) ∧
      p.pow n = (List.replicate n p).foldl mul one ∧
      p.pow (m + n) = (p.pow m).mul (p.pow n) ∧
      (p ≠ zero → ((p.pow n).degree? = some (n * p.degree) ↔ n * p.degree < exponentBound)) ∧
      ∀ q, p.boundedPow? n = some q ↔
        q = p.pow n ∧ q.degree = n * p.degree ∧ q.degree ≤ degreeLimit := by
  have ends := endsIn_power ⟨one, p, n⟩
  rw [power_start] at ends
  exact ⟨ends, pow_eq_foldl p n, (pow_mul_pow p m n).symm, degree?_pow_iff, fun q => boundedPow?_eq_some⟩

/-- Of the fifth power of `x² - x` the first and the last bit are taken into the product. -/
theorem fifth_power_by_squaring :
    let p := (monomial 2 1).add (monomial 1 (-1))
    p ≠ zero ∧ p.degree = 2 ∧ (∃ square, EndsIn powStep ⟨one, p, 5⟩ ⟨p.pow 5, square, 0⟩) ∧
      p.pow 5 = (List.replicate 5 p).foldl mul one ∧ p.pow (2 + 5) = (p.pow 2).mul (p.pow 5) ∧
      (p.pow 5).degree? = some 10 ∧ p.boundedPow? 5 = some (p.pow 5) := by
  intro p
  have p_ne : p ≠ zero := by decide +kernel
  have two : p.degree = 2 := by decide +kernel
  obtain ⟨ends, product, sum, degree, bounded⟩ := repeated_squaring_is_repeated_multiplication p 2 5
  have small : 5 * p.degree < exponentBound := by rw [two]; decide
  have ten := (degree p_ne).mpr small
  have degree_eq : (p.pow 5).degree = 5 * p.degree := degree_pow small
  rw [two] at ten degree_eq
  refine ⟨p_ne, two, ends, product, sum, ten, (bounded _).mpr ⟨rfl, ?_, ?_⟩⟩
  · rw [degree_eq, two]
  · rw [degree_eq]
    decide

/-- The square of `x ^ 2 ^ 63` has degree zero, for the degree wraps around. -/
example : ((monomial 9223372036854775808 1).pow 2).degree? = some 0 := by decide +kernel

end SymbolicAlgebra.Poly
