import SymbolicAlgebra.Expr.TotalOrder
import SymbolicAlgebra.NormalForm.FactoredProduct
import SymbolicAlgebra.Proofs.Valuation.Product

/-! A factored product has the value of its coefficient times all of its powers.
Multiplying by a factor multiplies that value, and both ways of writing the
product down give it back. Where it is written as a quotient, no divisor is zero. -/

namespace SymbolicAlgebra.Valuation
open SymbolicAlgebra.Expr

variable {K : Type*} [Field K] [DecidableEq K] {V : Valuation K}
variable {b e : Expr} {l : List Expr} {p : FactoredProduct} {t : Exponents} {k : ℚ} {x y z : K}

theorem MeansProduct.inverses (h : V.MeansProduct l z) (z_ne : z ≠ 0) :
    V.MeansProduct (l.map fun d => .pow d (const (-1))) z⁻¹ := by
  induction l generalizing z with
  | nil => simpa [← h.2] using meansProduct_nil
  | cons d rest ih =>
      obtain ⟨x, y, first, others, rfl⟩ := meansProduct_cons.mp h
      obtain ⟨x_ne, y_ne⟩ := mul_ne_zero_iff.mp z_ne
      have minusOne : V.Means (const (-1)) (-1) := (means_const (-1)).mpr (by simp)
      exact meansProduct_cons.mpr
        ⟨_, _, first.pow minusOne (V.power_inv x_ne), ih others y_ne, (mul_inv x y).symm⟩

/-- The powers that a table of exponents lists. -/
def listedPowers (t : Exponents) : List Expr := t.map fun entry => .pow entry.1 (const entry.2)

theorem MeansProduct.listedPowers_partition (h : V.MeansProduct (listedPowers t) z)
    (test : Expr × ℚ → Bool) : ∃ x y, V.MeansProduct (listedPowers (t.filter test)) x ∧
      V.MeansProduct (listedPowers (t.filter fun entry => !test entry)) y ∧ x * y = z := by
  have parted := (List.filter_append_perm test t).symm.map fun entry => Expr.pow entry.1 (const entry.2)
  rw [List.map_append] at parted
  exact meansProduct_append.mp (h.perm parted)

def MeansFactored (V : Valuation K) (p : FactoredProduct) (z : K) : Prop :=
  ∃ x y, V.MeansProduct (listedPowers p.exponents) x ∧ V.MeansProduct p.symbolic y ∧
    p.coeff * x * y = z

theorem meansFactored_ofCoeff (q : ℚ) : V.MeansFactored (.ofCoeff q) q :=
  ⟨1, 1, meansProduct_nil, meansProduct_nil, by simp [FactoredProduct.ofCoeff]⟩

theorem MeansProduct.withoutZeroPowers (h : V.MeansProduct (listedPowers t) z) :
    V.MeansProduct (listedPowers (t.filter fun entry => entry.2 ≠ 0)) z := by
  induction t generalizing z with
  | nil => exact h
  | cons head rest ih =>
      obtain ⟨u, v, first, others, rfl⟩ := meansProduct_cons.mp h
      by_cases zero : head.2 = 0
      · obtain ⟨s, t, base, exponent, has⟩ := means_pow.mp first
        rw [zero, means_const, Rat.cast_zero] at exponent
        rw [← exponent, V.power_zero] at has
        rw [List.filter_cons_of_neg (by simpa using zero), ← Option.some.inj has, one_mul]
        exact ih others
      · rw [List.filter_cons_of_pos (by simpa using zero)]
        exact meansProduct_cons.mpr ⟨u, v, first, ih others, rfl⟩

variable [CharZero K]

/-- The coefficient and the factors of a product multiply to its value. -/
theorem Means.splitQuotient (h : V.Means e x) :
    ∃ y, V.MeansProduct e.splitQuotient.2 y ∧ e.splitQuotient.1 * y = x := by
  induction e generalizing x with
  | const q => exact ⟨1, meansProduct_nil, by simpa [Expr.splitQuotient] using h⟩
  | neg a ih =>
      obtain ⟨y, inner, rfl⟩ := means_neg.mp h
      obtain ⟨z, factors, rfl⟩ := ih inner
      exact ⟨z, factors, by simp [Expr.splitQuotient]⟩
  | mul a b iha ihb =>
      obtain ⟨y, z, left, right, rfl⟩ := means_mul.mp h
      obtain ⟨u, leftFactors, rfl⟩ := iha left
      obtain ⟨w, rightFactors, rfl⟩ := ihb right
      refine ⟨u * w, leftFactors.append rightFactors, ?_⟩
      simp only [Expr.splitQuotient, Rat.cast_mul]
      ring
  | div a b iha ihb =>
      simp only [Expr.splitQuotient]
      split
      next => exact ⟨x, h.meansProduct, by simp⟩
      next q_ne =>
        obtain ⟨y, z, left, right, z_ne, rfl⟩ := means_div.mp h
        obtain ⟨u, factors, rfl⟩ := iha left
        obtain ⟨w, divisors, rfl⟩ := ihb right
        have w_ne : w ≠ 0 := right_ne_zero_of_mul z_ne
        refine ⟨u * w⁻¹, factors.append (divisors.inverses w_ne), ?_⟩
        have cast_ne : (b.splitQuotient.1 : K) ≠ 0 := Rat.cast_ne_zero.mpr q_ne
        rw [Rat.cast_div]
        field_simp
  | _ => exact ⟨x, h.meansProduct, by simp [Expr.splitQuotient]⟩

theorem means_const_add {j : ℚ} (h : V.Means (const j) x) (i : V.Means (const k) y) :
    V.Means (const (j + k)) (x + y) := by
  rw [means_const] at *
  rw [Rat.cast_add, h, i]

/-- The exponents of one base are added up. -/
theorem MeansProduct.addExponent (h : V.MeansProduct (listedPowers t) x)
    (i : V.Means (.pow b (const k)) y) :
    V.MeansProduct (listedPowers (Tally.add cmp b k t)) (x * y) := by
  induction t generalizing x with
  | nil =>
      rw [← h.2]
      exact meansProduct_cons.mpr ⟨y, 1, i, meansProduct_nil, by simp [listedPowers]⟩
  | cons head rest ih =>
      obtain ⟨u, v, first, others, rfl⟩ := meansProduct_cons.mp h
      simp only [Tally.add]
      split
      next => exact meansProduct_cons.mpr ⟨y, u * v, i, h, mul_comm _ _⟩
      next same =>
        obtain rfl := eq_of_cmp same
        exact meansProduct_cons.mpr ⟨u * y, v, first.pow_add (fun _ _ => means_const_add) i, others, by ring⟩
      next => exact meansProduct_cons.mpr ⟨u, v * y, first, ih others, by ring⟩

theorem MeansFactored.mulFactor (h : V.MeansFactored p z) (i : V.Means e x) :
    V.MeansFactored (p.mulFactor e) (z * x) := by
  obtain ⟨u, v, powers, symbolic, rfl⟩ := h
  have asBase : V.MeansFactored { p with exponents := p.exponents.add Expr.cmp e 1 }
      (p.coeff * u * v * x) := by
    have power : V.Means (.pow e (const 1)) x :=
      i.pow ((means_const 1).mpr Rat.cast_one) (V.power_one x)
    exact ⟨u * x, v, powers.addExponent power, symbolic, by ring⟩
  cases e with
  | const q =>
      rw [means_const] at i
      refine ⟨u, v, powers, symbolic, ?_⟩
      rw [FactoredProduct.mulFactor, Rat.cast_mul, i]
      ring
  | pow base exponent =>
      cases exponent with
      | const k => exact ⟨u * x, v, powers.addExponent i, symbolic, by rw [FactoredProduct.mulFactor]; ring⟩
      | _ =>
          refine ⟨u, v * x, powers, symbolic.append i.meansProduct, ?_⟩
          dsimp only [FactoredProduct.mulFactor]
          ring
  | _ => exact asBase

theorem MeansFactored.foldl_mulFactor (h : V.MeansFactored p z) (i : V.MeansProduct l x) :
    V.MeansFactored (l.foldl FactoredProduct.mulFactor p) (z * x) := by
  induction l generalizing p z x with
  | nil => simpa [← i.2] using h
  | cons e rest ih =>
      obtain ⟨u, v, first, others, rfl⟩ := meansProduct_cons.mp i
      rw [← mul_assoc]
      exact ih (h.mulFactor first) others

theorem MeansFactored.mulExpr (h : V.MeansFactored p z) (i : V.Means e x) :
    V.MeansFactored (p.mulExpr e) (z * x) := by
  obtain ⟨y, factors, rfl⟩ := i.splitQuotient
  obtain ⟨u, v, powers, symbolic, rfl⟩ := h
  have scaled : V.MeansFactored { p with coeff := p.coeff * e.splitQuotient.1 }
      (p.coeff * e.splitQuotient.1 * u * v) :=
    ⟨u, v, powers, symbolic, by rw [Rat.cast_mul]⟩
  have whole := scaled.foldl_mulFactor factors
  have shape : p.coeff * e.splitQuotient.1 * u * v * y =
      p.coeff * u * v * (e.splitQuotient.1 * y) := by ring
  rwa [shape] at whole

theorem means_times_foldl {a : Expr} (h : V.Means a x) (i : V.MeansProduct l y) :
    V.Means (l.foldl Expr.times a) (x * y) := by
  induction l generalizing a x y with
  | nil => simpa [← i.2] using h
  | cons e rest ih =>
      obtain ⟨u, v, first, others, rfl⟩ := meansProduct_cons.mp i
      rw [← mul_assoc]
      exact ih (h.times first) others

theorem means_raise_foldl {a : Expr} (h : V.Means a x) (i : V.MeansProduct (listedPowers t) y) :
    V.Means (t.foldl (fun product entry => product.times (entry.1.raise (const entry.2))) a)
      (x * y) := by
  induction t generalizing a x y with
  | nil => simpa [← i.2, listedPowers] using h
  | cons entry rest ih =>
      obtain ⟨u, v, first, others, rfl⟩ := meansProduct_cons.mp i
      rw [← mul_assoc]
      exact ih (h.times first.raise) others

theorem means_exponents (q : ℚ) (h : V.MeansProduct (listedPowers t) x) :
    V.Means (t.toExpr q) (q * x) := by
  rw [Exponents.toExpr]
  split
  next zero => simp [zero]
  next => exact means_raise_foldl ((means_const q).mpr rfl) h.withoutZeroPowers

theorem MeansFactored.toExpr (h : V.MeansFactored p z) : V.Means p.toExpr z := by
  obtain ⟨x, y, powers, symbolic, rfl⟩ := h
  exact means_times_foldl (means_exponents p.coeff powers) symbolic

theorem MeansProduct.turned (h : V.MeansProduct (listedPowers t) x)
    (negative : ∀ entry ∈ t, entry.2 < 0) :
    x ≠ 0 ∧ V.MeansProduct (listedPowers (t.map fun entry => (entry.1, -entry.2))) x⁻¹ := by
  induction t generalizing x with
  | nil =>
      rw [← h.2]
      exact ⟨by simp [listedPowers], by simpa [listedPowers] using meansProduct_nil⟩
  | cons head rest ih =>
      obtain ⟨u, v, first, others, rfl⟩ := meansProduct_cons.mp h
      obtain ⟨head_neg, rest_neg⟩ := List.forall_mem_cons.mp negative
      obtain ⟨s, r, base, exponent, has⟩ := means_pow.mp first
      rw [means_const] at exponent
      subst exponent
      obtain ⟨v_ne, turned⟩ := ih others rest_neg
      have inverse : V.Means (.pow head.1 (const (-head.2))) u⁻¹ :=
        base.pow ((means_const _).mpr rfl) (V.power_neg_of_neg head_neg has)
      exact ⟨mul_ne_zero (V.ne_zero_of_power_neg head_neg has) v_ne,
        meansProduct_cons.mpr ⟨_, _, inverse, turned, (mul_inv u v).symm⟩⟩

/-- Numerator and denominator of a product without symbolic powers. -/
theorem MeansFactored.quotient (h : V.MeansFactored p z) (plain : p.symbolic = []) :
    ∃ x y, V.Means p.numerator x ∧ V.Means (p.divisors.toExpr 1) y ∧ y ≠ 0 ∧ x / y = z := by
  obtain ⟨u, v, powers, symbolic, rfl⟩ := h
  rw [plain] at symbolic
  obtain ⟨x, w, positive, others, rfl⟩ := powers.listedPowers_partition fun entry => 0 < entry.2
  have remaining := others.withoutZeroPowers
  rw [List.filter_filter] at remaining
  have negative : p.exponents.filter (fun entry => decide (entry.2 ≠ 0) && !decide (0 < entry.2)) =
      p.exponents.filter fun entry => entry.2 < 0 := by
    apply List.filter_congr
    intro entry _
    rw [← decide_not, ← Bool.decide_and, decide_eq_decide, not_lt]
    constructor
    · rintro ⟨ne, le⟩
      exact lt_of_le_of_ne le ne
    · intro lt
      exact ⟨lt.ne, lt.le⟩
  rw [negative] at remaining
  obtain ⟨w_ne, turned⟩ := remaining.turned fun entry member => by
    simpa using (List.mem_filter.mp member).2
  have denominator := means_exponents 1 turned
  rw [Rat.cast_one, one_mul] at denominator
  refine ⟨p.coeff * x, w⁻¹, means_exponents p.coeff positive, denominator, inv_ne_zero w_ne, ?_⟩
  rw [← symbolic.2, List.map_nil, List.prod_nil, div_inv_eq_mul]
  ring

end SymbolicAlgebra.Valuation
