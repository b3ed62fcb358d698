import Mathlib.Algebra.Order.Field.Power
import Mathlib.Data.Rat.Lemmas
import SymbolicAlgebra.Number

/-! A folded power is the integer power of the rationals, and it is folded exactly
when the exponent is an integer within the limit and the power exists. -/

namespace SymbolicAlgebra

theorem exists_int_of_isInt {q : ℚ} (h : q.isInt = true) : ∃ k : ℤ, q = k := by
  have den_one : q.den = 1 := by simpa [Rat.isInt] using h
  exact ⟨q.num, ((Rat.den_eq_one_iff q).mp den_one).symm⟩

namespace Number

theorem pow_natAbs_of_nonneg (b : ℚ) {k : ℤ} (nonneg : 0 ≤ k) : b.pow k.natAbs = b ^ k := by
  obtain ⟨n, rfl⟩ := Int.eq_ofNat_of_zero_le nonneg
  exact (zpow_natCast b n).symm

theorem inv_pow_natAbs_of_neg (b : ℚ) {k : ℤ} (negative : ¬ 0 ≤ k) :
    (b.pow k.natAbs)⁻¹ = b ^ k := by
  rw [← Int.natAbs_neg, pow_natAbs_of_nonneg b (by omega), zpow_neg, inv_inv]

theorem power?_eq_some {b e v : ℚ} : power? b e = some v ↔
    ∃ k : ℤ, e = k ∧ k.natAbs ≤ foldLimit ∧ (0 ≤ k ∨ b ≠ 0) ∧ b ^ k = v := by
  have atInt (k : ℤ) : power? b k = some v ↔
      k.natAbs ≤ foldLimit ∧ (0 ≤ k ∨ b ≠ 0) ∧ b ^ k = v := by
    by_cases bounded : k.natAbs ≤ foldLimit
    · by_cases nonneg : 0 ≤ k
      · simp [power?, bounded, nonneg, pow_natAbs_of_nonneg]
      · by_cases b_zero : b = 0 <;>
          simp [power?, bounded, nonneg, b_zero, inv_pow_natAbs_of_neg]
    · simp [power?, bounded]
  constructor
  · intro folded
    have integer : e = e.num := by
      have fits : e.den = 1 ∧ e.num.natAbs ≤ foldLimit := by
        by_contra outside
        rw [power?, if_neg outside] at folded
        cases folded
      exact ((Rat.den_eq_one_iff e).mp fits.1).symm
    exact ⟨e.num, integer, (atInt e.num).mp (integer ▸ folded)⟩
  · rintro ⟨k, rfl, folds⟩
    exact (atInt k).mpr folds

end Number
end SymbolicAlgebra
