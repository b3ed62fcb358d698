import Mathlib.Analysis.SpecialFunctions.Arcosh
import Mathlib.Analysis.SpecialFunctions.Arsinh
import Mathlib.Analysis.SpecialFunctions.Artanh
import Mathlib.Analysis.SpecialFunctions.Pow.Real
import Mathlib.Analysis.SpecialFunctions.Trigonometric.Arctan
import SymbolicAlgebra.Proofs.Valuation

/-! The functions of real analysis, each on its real domain, are an interpretation:
the identities that simplification may use hold of them. -/

namespace SymbolicAlgebra.RealFunction
open Classical Real

/-- A value under a condition. -/
noncomputable def onDomain (domain : Prop) (x : ℝ) : Option ℝ := if domain then some x else none

@[simp] theorem onDomain_eq_some {domain : Prop} {x y : ℝ} :
    onDomain domain x = some y ↔ domain ∧ x = y := by
  simp [onDomain]

/-- Bases of which a power exists: positive ones, zero under no negative exponent,
and any other one under an integer. -/
def HasPower (b p : ℝ) : Prop := 0 < b ∨ b = 0 ∧ 0 ≤ p ∨ b ≠ 0 ∧ ∃ k : ℤ, p = k

noncomputable def power (b p : ℝ) : Option ℝ := onDomain (HasPower b p) (b ^ p)

@[simp] noncomputable def head : Fn → ℝ → Option ℝ
  | .sin, x => some (sin x)
  | .cos, x => some (cos x)
  | .tan, x => onDomain (cos x ≠ 0) (tan x)
  | .sec, x => onDomain (cos x ≠ 0) (cos x)⁻¹
  | .csc, x => onDomain (sin x ≠ 0) (sin x)⁻¹
  | .cot, x => onDomain (sin x ≠ 0) (cos x / sin x)
  | .atan, x => some (arctan x)
  | .asin, x => onDomain (-1 ≤ x ∧ x ≤ 1) (arcsin x)
  | .acos, x => onDomain (-1 ≤ x ∧ x ≤ 1) (arccos x)
  | .asec, x => onDomain (1 ≤ |x|) (arccos x⁻¹)
  | .acsc, x => onDomain (1 ≤ |x|) (arcsin x⁻¹)
  | .acot, x => some (π / 2 - arctan x)
  | .sinh, x => some (sinh x)
  | .cosh, x => some (cosh x)
  | .tanh, x => some (tanh x)
  | .asinh, x => some (arsinh x)
  | .acosh, x => onDomain (1 ≤ x) (arcosh x)
  | .atanh, x => onDomain (-1 < x ∧ x < 1) (artanh x)
  | .exp, x => some (exp x)
  | .log, x => onDomain (0 < x) (log x)
  | .abs, x => some |x|

theorem power_eq_some {b p x : ℝ} : power b p = some x ↔ HasPower b p ∧ b ^ p = x :=
  onDomain_eq_some

theorem hasPower_int {b : ℝ} {k : ℤ} : HasPower b k ↔ 0 ≤ k ∨ b ≠ 0 := by
  constructor
  · rintro (positive | ⟨-, nonneg⟩ | ⟨b_ne, -⟩)
    · exact .inr positive.ne'
    · exact .inl (by exact_mod_cast nonneg)
    · exact .inr b_ne
  · intro exists'
    by_cases b_zero : b = 0
    · exact .inr (.inl ⟨b_zero, by exact_mod_cast exists'.resolve_right (not_not.mpr b_zero)⟩)
    · exact .inr (.inr ⟨b_zero, k, rfl⟩)

theorem power_int (b : ℝ) (k : ℤ) (exists' : 0 ≤ k ∨ b ≠ 0) : power b k = some (b ^ k) :=
  power_eq_some.mpr ⟨hasPower_int.mpr exists', rpow_intCast b k⟩

/-- A base below zero is raised to integers only. -/
theorem int_of_hasPower_neg {b p : ℝ} (negative : b < 0) (has : HasPower b p) :
    ∃ k : ℤ, p = k := by
  rcases has with positive | ⟨rfl, -⟩ | ⟨-, integer⟩
  · exact absurd positive negative.not_gt
  · exact absurd negative (lt_irrefl 0)
  · exact integer

theorem nonneg_of_hasPower_zero {p : ℝ} (has : HasPower 0 p) : 0 ≤ p := by
  rcases has with positive | ⟨-, nonneg⟩ | ⟨zero_ne, -⟩
  · exact absurd positive (lt_irrefl 0)
  · exact nonneg
  · exact absurd rfl zero_ne

theorem power_add {b p q x y : ℝ} (h : power b p = some x) (k : power b q = some y) :
    power b (p + q) = some (x * y) := by
  rw [power_eq_some] at *
  obtain ⟨has, rfl⟩ := h
  obtain ⟨has', rfl⟩ := k
  rcases lt_trichotomy b 0 with negative | rfl | positive
  · obtain ⟨m, rfl⟩ := int_of_hasPower_neg negative has
    obtain ⟨n, rfl⟩ := int_of_hasPower_neg negative has'
    have sum : ((m : ℝ) + n) = ((m + n : ℤ) : ℝ) := by push_cast; rfl
    rw [sum]
    refine ⟨hasPower_int.mpr (.inr negative.ne), ?_⟩
    rw [rpow_intCast, rpow_intCast, rpow_intCast, zpow_add₀ negative.ne]
  · have p_nonneg := nonneg_of_hasPower_zero has
    have q_nonneg := nonneg_of_hasPower_zero has'
    exact ⟨.inr (.inl ⟨rfl, add_nonneg p_nonneg q_nonneg⟩),
      rpow_add_of_nonneg le_rfl p_nonneg q_nonneg⟩
  · exact ⟨.inl positive, rpow_add positive p q⟩

theorem power_power {b p x y : ℝ} (k : ℤ) (h : power b p = some x) (l : power x k = some y) :
    power b (p * k) = some y := by
  rw [power_eq_some] at *
  obtain ⟨has, rfl⟩ := h
  obtain ⟨has', rfl⟩ := l
  rcases lt_trichotomy b 0 with negative | rfl | positive
  · obtain ⟨m, rfl⟩ := int_of_hasPower_neg negative has
    have product : ((m : ℝ) * k) = ((m * k : ℤ) : ℝ) := by push_cast; rfl
    rw [product]
    refine ⟨hasPower_int.mpr (.inr negative.ne), ?_⟩
    rw [rpow_intCast, rpow_intCast, rpow_intCast, zpow_mul]
  · have p_nonneg := nonneg_of_hasPower_zero has
    rcases p_nonneg.eq_or_lt with rfl | p_pos
    · rw [zero_mul, rpow_zero, one_rpow]
      exact ⟨has, rfl⟩
    · rw [zero_rpow p_pos.ne'] at *
      have k_nonneg := nonneg_of_hasPower_zero has'
      refine ⟨.inr (.inl ⟨rfl, mul_nonneg p_nonneg k_nonneg⟩), ?_⟩
      rcases k_nonneg.eq_or_lt with k_zero | k_pos
      · rw [← k_zero, mul_zero]
      · rw [zero_rpow (mul_pos p_pos k_pos).ne', zero_rpow k_pos.ne']
  · exact ⟨.inl positive, rpow_mul positive.le p k⟩

theorem inverse {f g : Fn} {a x y : ℝ} (pair : (f, g) ∈ Fn.inversePairs) (h : head g a = some x)
    (k : head f x = some y) : y = a := by
  simp only [Fn.inversePairs, List.mem_cons, Prod.mk.injEq, List.not_mem_nil, or_false] at pair
  rcases pair with ⟨rfl, rfl⟩ | ⟨rfl, rfl⟩ | ⟨rfl, rfl⟩ | ⟨rfl, rfl⟩ | ⟨rfl, rfl⟩ <;>
    simp only [head, onDomain_eq_some, Option.some.injEq] at h k
  · obtain ⟨⟨lower, upper⟩, rfl⟩ := h
    rw [← k, sin_arcsin lower upper]
  · obtain ⟨⟨lower, upper⟩, rfl⟩ := h
    rw [← k, cos_arccos lower upper]
  · rw [← k.2, ← h, tan_arctan]
  · obtain ⟨positive, rfl⟩ := h
    rw [← k, exp_log positive]
  · rw [← k.2, ← h, log_exp]

theorem odd {f : Fn} {a x : ℝ} (parity : f.parity = .odd) (h : head f (-a) = some x) :
    head f a = some (-x) := by
  cases f <;> first | cases parity; done | simp only [head, onDomain_eq_some, Option.some.injEq] at *
  case sin => rw [← h, sin_neg, neg_neg]
  case tan => rw [← h.2, tan_neg, neg_neg]; simpa using h.1
  case csc => rw [← h.2, sin_neg, inv_neg, neg_neg]; simpa using h.1
  case cot => rw [← h.2, sin_neg, cos_neg, div_neg, neg_neg]; simpa using h.1
  case atan => rw [← h, arctan_neg, neg_neg]
  case asin =>
    obtain ⟨⟨lower, upper⟩, rfl⟩ := h
    exact ⟨⟨by linarith, by linarith⟩, by rw [arcsin_neg, neg_neg]⟩
  case sinh => rw [← h, sinh_neg, neg_neg]
  case tanh => rw [← h, tanh_neg, neg_neg]
  case asinh => rw [← h, arsinh_neg, neg_neg]
  case atanh =>
    obtain ⟨⟨lower, upper⟩, rfl⟩ := h
    refine ⟨⟨by linarith, by linarith⟩, ?_⟩
    rw [artanh, artanh, ← log_inv, ← sqrt_inv, inv_div, sub_neg_eq_add, ← sub_eq_add_neg]

theorem even {f : Fn} {a x : ℝ} (parity : f.parity = .even) (h : head f (-a) = some x) :
    head f a = some x := by
  cases f <;> first | cases parity; done | simpa using h

theorem zero_at_zero {f : Fn} {x : ℝ} (listed : f ∈ Fn.vanishingAtZero) (h : head f 0 = some x) :
    x = 0 := by
  simp only [Fn.vanishingAtZero, List.mem_cons, List.not_mem_nil, or_false] at listed
  rcases listed with rfl | rfl | rfl | rfl | rfl | rfl | rfl | rfl <;> simp_all

theorem one_at_zero {f : Fn} {x : ℝ} (listed : f ∈ Fn.unitAtZero) (h : head f 0 = some x) :
    x = 1 := by
  simp only [Fn.unitAtZero, List.mem_cons, List.not_mem_nil, or_false] at listed
  rcases listed with rfl | rfl | rfl | rfl <;> simp_all

/-- The real functions as an interpretation. -/
noncomputable def interpretation : Interpretation ℝ where
  pi := π
  power := power
  head := head
  power_int := power_int
  one_power h := by simpa using (power_eq_some.mp h).2.symm
  power_add := power_add
  power_power := power_power
  exp_add h k := by
    simp only [head, Option.some.injEq] at *
    rw [← h, ← k, exp_add]
  exp_power h k := by
    simp only [head, Option.some.injEq, power_eq_some] at *
    rw [← k.2, ← h, exp_mul]
  inverse := inverse
  odd := odd
  even := even
  zero_at_zero := zero_at_zero
  one_at_zero := one_at_zero
  zero_at_one listed h := by rcases listed with rfl | rfl <;> simp_all
  zero_at_pi listed h := by rcases listed with rfl | rfl <;> simp_all
  cos_pi h := by simpa [head, eq_comm] using h
  abs_rational h := by
    simp only [head, Option.some.injEq] at h
    rw [← h, Rat.cast_abs]
  abs_neg h := by simpa using h
  abs_pi h := by
    simp only [head, Option.some.injEq] at h
    rw [← h, abs_of_pos pi_pos]
  abs_positive listed h k := by
    rcases listed with rfl | rfl <;> simp only [head, Option.some.injEq] at h k
    · rw [← k, ← h, abs_of_pos (exp_pos _)]
    · rw [← k, ← h, abs_abs]
  sin_sq_add_cos_sq h k := by
    simp only [head, Option.some.injEq] at h k
    rw [← h, ← k, sin_sq_add_cos_sq]
  cos_sub h k l m := by
    simp only [head, Option.some.injEq] at *
    rw [cos_sub, ← h, ← k, ← l, ← m, add_comm]

noncomputable def valuation (symbol : String → ℝ) : Valuation ℝ :=
  { interpretation with symbol := symbol }

end SymbolicAlgebra.RealFunction
