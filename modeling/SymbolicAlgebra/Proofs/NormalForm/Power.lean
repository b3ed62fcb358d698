import SymbolicAlgebra.Proofs.NormalForm
import SymbolicAlgebra.Proofs.NormalForm.Sum
import SymbolicAlgebra.Proofs.Number
import SymbolicAlgebra.Proofs.Polynomial.Reading

/-! Integer powers of sums. The normal form takes the slope out of a linear sum, if the
power of the slope is folded; every other power of a sum is kept. -/

namespace SymbolicAlgebra.Expr
open SymbolicAlgebra.Poly (simplified)

variable {name : String} {e : Expr} {q : Poly}

section PowerOfSum
variable {k : ℤ} (sum : (q.simplified name).isSum = true) (k_ne : k ≠ 0) (one_ne : k ≠ 1)
include k_ne one_ne

theorem powers_int (b : Expr) : powers b k = [pow b (const k)] := by
  rw [powers, if_neg (by exact_mod_cast k_ne), if_neg (by exact_mod_cast one_ne)]

include sum

theorem settled_pow_sum : Settled [pow (q.simplified name) (const k)] := by
  have settled := Poly.settled_sum sum .nil List.not_mem_nil k
  rwa [List.append_nil, powers_int k_ne one_ne] at settled

theorem pass_multiple_pow_sum (c : Rat) :
    (multiple c [pow (q.simplified name) (const k)]).pass = multiple c [pow (q.simplified name) (const k)] :=
  pass_multiple (settled_pow_sum sum k_ne one_ne) (isKey_sort (List.forall_mem_singleton.mpr rfl) rfl) c

theorem raise_sum_int : (q.simplified name).raise (const k) = pow (q.simplified name) (const k) := by
  rw [raise_of_isBase (isBase_of_isSum sum), if_neg (by exact_mod_cast k_ne),
    if_neg (by exact_mod_cast one_ne)]

end PowerOfSum

/-- A linear sum with the slope taken out. -/
theorem monic_linear {l : LinearForm} (read : LinearForm.ofExpr? (q.simplified name) = some l)
    (slope_ne : l.slope ≠ 0) : l.symbol = some name ∧ l.slope = q.coeff 1 ∧
      q.scale l.slope⁻¹ = (Poly.monomial 1 1).add (Poly.const (l.offset / l.slope)) := by
  obtain ⟨symbol, coeffs⟩ := Poly.linearForm_sumOfPowers (Poly.sumOf_simplified name q) read
  simp only [Poly.weighted_simplified] at coeffs
  refine ⟨symbol.resolve_left fun number => slope_ne number.2, (coeffs 1).symm, ?_⟩
  apply Poly.eq_of_coeff
  intro n
  rw [← Poly.coeff_toPolynomial, Poly.toPolynomial_scale, Polynomial.coeff_C_mul, Poly.coeff_toPolynomial,
    coeffs, Poly.coeff_add, Poly.const, Poly.coeff_monomial (by decide), Poly.coeff_monomial (by decide)]
  rcases n with _ | _ | n
  · simp [div_eq_inv_mul]
  · simp [slope_ne]
  · simp

/-- The power of a linear sum from which a number can be taken out. -/
theorem linearPower?_simplified {k : ℤ} (sum : (q.simplified name).isSum = true)
    (found : linearPower? (q.simplified name) (const k) = some e) :
    ∃ a ≠ 0, a = (q.coeff 1)⁻¹ ∧
      e = (const (a ^ (-k))).times (((q.scale a).simplified name).raise (const k)) := by
  obtain ⟨_, l, exponent, -, read, factored⟩ := linearPower?_eq_some found
  obtain rfl := Expr.const.inj exponent
  obtain ⟨symbol, scale, named, slope_ne, folded, rfl⟩ := LinearForm.factoredPower?_eq_some factored
  obtain ⟨j, same, -, -, rfl⟩ := Number.power?_eq_some.mp folded
  obtain rfl := Rat.intCast_injective same
  obtain ⟨only, slope, monic⟩ := monic_linear read slope_ne
  obtain rfl := Option.some.inj (named.symm.trans only)
  have inv_ne := inv_ne_zero slope_ne
  have var_eq : (Poly.monomial 1 1).simplified symbol = var symbol := by
    rw [Poly.simplified_monomial symbol (by decide), Nat.cast_one, powers_one, multiple_one_singleton rfl]
  have shift_ne : l.offset / l.slope ≠ 0 := by
    intro vanishes
    have scaled := Poly.isSum_simplified_scale inv_ne sum
    rw [monic, vanishes, ← Poly.simplified_plus, var_eq] at scaled
    cases scaled
  refine ⟨l.slope⁻¹, inv_ne, congrArg _ slope, ?_⟩
  rw [if_neg shift_ne, monic, ← Poly.simplified_plus, var_eq, Poly.simplified_const, inv_zpow, zpow_neg, inv_inv]

/-- An integer power of a sum keeps its shape, or a number is taken out of the sum. -/
theorem normalizeWithin_pow_sum {k : ℤ} (sum : (q.simplified name).isSum = true) (k_ne : k ≠ 0)
    (one_ne : k ≠ 1) (limit depth : ℕ) : ∃ a ≠ 0, (a = 1 ∨ a = (q.coeff 1)⁻¹) ∧
      normalizeWithin limit depth (pow (q.simplified name) (const k)) =
        multiple (a ^ (-k)) [pow ((q.scale a).simplified name) (const k)] := by
  have unit : multiple 1 [pow (q.simplified name) (const k)] = pow (q.simplified name) (const k) :=
    multiple_one_singleton rfl
  have kept (f : Expr) (same : f = pow (q.simplified name) (const k)) : ∃ a ≠ 0,
      (a = 1 ∨ a = (q.coeff 1)⁻¹) ∧ f = multiple (a ^ (-k)) [pow ((q.scale a).simplified name) (const k)] :=
    ⟨1, one_ne_zero, .inl rfl, by rw [same, Poly.scale_one, one_zpow, unit]⟩
  cases depth with
  | zero => exact kept _ rfl
  | succ depth =>
      have fixed := pass_multiple_pow_sum sum k_ne one_ne 1
      rw [unit] at fixed
      by_cases large : limit < (pow (q.simplified name) (const k)).size
      · apply kept
        rw [normalizeWithin, normalLevel, if_pos large]
        exact simplifyWithin_of_pass fixed _
      rw [normalizeWithin, normalLevel, if_neg large, normalPower, normalizeWithin_simplified,
        normalizeWithin_const]
      split
      next r found =>
        obtain ⟨a, a_ne, slope, rfl⟩ := linearPower?_simplified sum found
        have scaled := Poly.isSum_simplified_scale a_ne sum
        have settled := settled_pow_sum scaled k_ne one_ne
        refine ⟨a, a_ne, .inr slope, ?_⟩
        have product := const_times_multiple settled.toIndependent (a ^ (-k)) 1
          (by rw [multiple_one_singleton rfl]; intro sum; cases sum)
        rw [multiple_one_singleton rfl, mul_one] at product
        rw [raise_sum_int scaled k_ne one_ne, product]
        exact simplifyWithin_of_pass (pass_multiple_pow_sum scaled k_ne one_ne _) _
      next =>
        exact kept _ (raise_sum_int sum k_ne one_ne)

end SymbolicAlgebra.Expr
