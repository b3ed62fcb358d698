import Mathlib.Algebra.Order.Ring.Int
import SymbolicAlgebra.Proofs.Arithmetic.Infinity
import SymbolicAlgebra.Proofs.Arithmetic.Quotient

/-! Powers and quotients with infinity and with indeterminate forms. An integer power of an
infinite base is one, zero or infinite. A quotient is the product with the reciprocal, and
only zero over a divisor that is no number is decided without a look at the divisor. -/

namespace SymbolicAlgebra.Expr

variable {x y : Expr} {p q : Rat}

theorem undefined_raise (k : Expr) : undefined.raise k = undefined := by
  rw [raise, raiseWith.eq_def, if_pos (.inl rfl)]

theorem raise_undefined (b : Expr) : b.raise undefined = undefined := by
  rw [raise, raiseWith.eq_def, if_pos (.inr rfl)]

theorem raise_infinity (k : ℤ) :
    infinity.raise (const k) = if k = 0 then one else if k < 0 then zero else infinity := by
  rw [raise, raiseWith, if_neg (by simp)]
  simp only [isZero, isOne, decide_eq_true_eq, Bool.false_eq_true, if_false, value?, Int.cast_eq_zero,
    Int.cast_eq_one, Int.cast_lt_zero]
  split
  next => rfl
  split
  next one => rw [one, if_neg (by decide)]
  next => rfl

/-- The sign of an infinite power is that of the power of the sign. -/
theorem raise_signedInfinity (q_ne : q ≠ 0) (k : ℤ) : (signedInfinity q).raise (const k) =
    if k = 0 then one else if k < 0 then zero else signedInfinity (q ^ k) := by
  rcases lt_or_gt_of_ne q_ne with negative | positive
  · rw [signedInfinity_of_neg negative, raise_eq, raiseWith, if_neg (by simp), ← raise_eq]
    simp only [isZero, isOne, decide_eq_true_eq, Int.cast_eq_zero, Int.cast_eq_one, isInteger_int, if_true,
      raise_infinity, isOddInteger_int, Bool.false_eq_true, if_false]
    split
    next => rfl
    next k_ne =>
      split
      next one => rw [one, zpow_one, if_neg (by decide), signedInfinity_of_neg negative]
      next =>
        by_cases odd : Odd k
        · rw [if_pos odd, signedInfinity_of_neg (odd.zpow_neg negative)]
          split <;> rfl
        · rw [if_neg odd, signedInfinity_of_pos ((Int.not_odd_iff_even.mp odd).zpow_pos q_ne)]
  · rw [signedInfinity_of_pos positive, raise_infinity, signedInfinity_of_pos (zpow_pos positive k)]

theorem times_one (x : Expr) : x.times one = x := by
  have plain : MultipliesPlainly x one := .number_right fun _ => rfl
  rw [times_eq_timesPlain plain, timesPlain_one_right]

theorem raise_one (k : Rat) : one.raise (const k) = one := by
  rw [raise, one, raiseWith, if_neg (by simp)]
  split
  next => rfl
  split
  next => rfl
  next => rfl

/-- A quotient is the product with the reciprocal of the divisor, apart from zero over a divisor
that is no number. -/
theorem dividedBy_eq_times (y_ne : y.isZero = false)
    (cancelled : x.isZero = true → y.value? = none → x.times (y.raise (const (-1))) = zero) :
    x.dividedBy y = x.times (y.raise (const (-1))) := by
  rw [dividedBy, y_ne, if_neg Bool.false_ne_true]
  split
  next p q left right =>
    obtain rfl : x = const p := by cases x <;> cases left; rfl
    obtain rfl : y = const q := by cases y <;> cases right; rfl
    have q_ne : q ≠ 0 := by simpa [isZero] using y_ne
    rw [raise_const_neg_one q_ne, const_times_const, div_eq_mul_inv]
  next number =>
    split
    next vanishes =>
      symm
      apply cancelled vanishes
      obtain rfl := (isZero_iff x).mp vanishes
      exact Option.eq_none_iff_forall_ne_some.mpr fun q => number 0 q rfl
    split
    next unit =>
      obtain rfl := (isOne_iff y).mp unit
      rw [raise_one, times_one]
    next => rfl

theorem undefined_dividedBy (y_ne : y ≠ zero) : undefined.dividedBy y = undefined := by
  have divisor : y.isZero = false := Bool.eq_false_iff.mpr (mt (isZero_iff y).mp y_ne)
  rw [dividedBy_eq_times divisor (by intro vanishes; cases vanishes), undefined_times]

/-- An indeterminate divisor is noticed by every numerator but zero. -/
theorem dividedBy_undefined (x_ne : x ≠ zero) : x.dividedBy undefined = undefined := by
  have numerator : ¬ x.isZero = true := mt (isZero_iff x).mp x_ne
  rw [dividedBy_eq_times rfl (fun vanishes => absurd vanishes numerator), undefined_raise, times_undefined]

end SymbolicAlgebra.Expr
