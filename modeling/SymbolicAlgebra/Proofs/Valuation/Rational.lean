import SymbolicAlgebra.Proofs.Number
import SymbolicAlgebra.Proofs.Valuation

/-! Rational arithmetic is an interpretation, with whole powers and without heads. -/

namespace SymbolicAlgebra.RationalArithmetic

def power (b p : ℚ) : Option ℚ :=
  if p.isInt = true ∧ (0 ≤ p ∨ b ≠ 0) then some (b ^ p.num) else none

theorem power_int (b : ℚ) (k : ℤ) (exists' : 0 ≤ k ∨ b ≠ 0) : power b k = some (b ^ k) :=
  if_pos ⟨rfl, exists'.imp_left Int.cast_nonneg_iff.mpr⟩

theorem exists_int_of_power {b p x : ℚ} (has : power b p = some x) :
    ∃ k : ℤ, p = k ∧ (0 ≤ k ∨ b ≠ 0) ∧ x = b ^ k := by
  rw [power] at has
  split at has
  next exists' =>
    obtain ⟨whole, based⟩ := exists'
    obtain ⟨k, rfl⟩ := exists_int_of_isInt whole
    exact ⟨k, rfl, based.imp_left Int.cast_nonneg_iff.mp, (Option.some.inj has).symm⟩
  next => cases has

theorem power_add {b p q x y : ℚ} (h : power b p = some x) (k : power b q = some y) :
    power b (p + q) = some (x * y) := by
  obtain ⟨m, rfl, hm, rfl⟩ := exists_int_of_power h
  obtain ⟨n, rfl, hn, rfl⟩ := exists_int_of_power k
  have both : b = 0 → 0 ≤ m ∧ 0 ≤ n := fun b_zero =>
    ⟨hm.resolve_right (not_not.mpr b_zero), hn.resolve_right (not_not.mpr b_zero)⟩
  rw [← Int.cast_add]
  by_cases b_zero : b = 0
  · obtain ⟨m_nonneg, n_nonneg⟩ := both b_zero
    rw [← zpow_add' (.inr (by omega))]
    exact power_int b (m + n) (.inl (by omega))
  · rw [← zpow_add₀ b_zero]
    exact power_int b (m + n) (.inr b_zero)

theorem power_power {b p x y : ℚ} (k : ℤ) (h : power b p = some x) (l : power x k = some y) :
    power b (p * k) = some y := by
  obtain ⟨m, rfl, hm, rfl⟩ := exists_int_of_power h
  obtain ⟨n, same, hn, rfl⟩ := exists_int_of_power l
  obtain rfl := Int.cast_injective same
  rw [← Int.cast_mul, ← zpow_mul]
  refine power_int b (m * k) ?_
  by_cases b_zero : b = 0
  · subst b_zero
    have m_nonneg : 0 ≤ m := hm.resolve_right (not_not.mpr rfl)
    by_cases m_zero : m = 0
    · exact .inl (by rw [m_zero, zero_mul])
    · rw [zero_zpow m m_zero] at hn
      exact .inl (mul_nonneg m_nonneg (hn.resolve_right (not_not.mpr rfl)))
  · exact .inr b_zero

/-- Whole powers, and no value of `pi` or of a head that anything could follow from. -/
def interpretation : Interpretation ℚ where
  pi := 0
  power := power
  head _ _ := none
  power_int := power_int
  one_power h := by
    obtain ⟨k, -, -, rfl⟩ := exists_int_of_power h
    exact one_zpow k
  power_add := power_add
  power_power := power_power
  exp_add := by simp
  exp_power := by simp
  inverse := by simp
  odd := by simp
  even := by simp
  zero_at_zero := by simp
  one_at_zero := by simp
  zero_at_one := by simp
  zero_at_pi := by simp
  cos_pi := by simp
  abs_rational := by simp
  abs_neg := by simp
  abs_pi := by simp
  abs_positive := by simp
  sin_sq_add_cos_sq := by simp
  cos_sub := by simp

/-- All symbols have the same value. -/
def valuation (x : ℚ) : Valuation ℚ := { interpretation with symbol := fun _ => x }

end SymbolicAlgebra.RationalArithmetic
