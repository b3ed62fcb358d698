import Mathlib.Data.List.Permutation
import SymbolicAlgebra.Proofs.Arithmetic.Quotient
import SymbolicAlgebra.Proofs.NormalForm.Power
import SymbolicAlgebra.Proofs.NormalForm.Quotient

/-! The quotient of two polynomials, of which the divisor divides the other. However the
division is carried out, by distributing a number, by joining the powers of the symbol,
by cancelling equal sums or by lowest terms, the normal form is the same polynomial. -/

namespace SymbolicAlgebra.Expr
open SymbolicAlgebra.Poly (simplified)

variable {name : String} {b e f : Expr} {p q s d m : Poly} {a c : Rat} {n limit depth : ℕ}

/-- A multiple of the quotient of a sum `p` by the power `b ^ n`, which the polynomial `s`
is worth: up to the coefficient `c`, `p` is `s` times the polynomial `d` of the power. -/
structure OpenQuotient (name : String) (p s d : Poly) (b : Expr) (n : ℕ) (c : Rat) : Prop where
  sum : (p.simplified name).isSum = true
  base : b.isBase = true
  exponent_ne : n ≠ 0
  same_base : b = p.simplified name → n = 1
  coeff_ne : c ≠ 0
  divisor : multiple 1 (powers b n) = d.simplified name
  product : p.scale c = s.mul d
  quotient_ne : s.isZero = false
  divisor_ne : d.isZero = false
  degree_ne : d.degree ≠ 0
  bounded : s.degree + d.degree ≤ Poly.degreeLimit

theorem powers_neg (b : Expr) (n_ne : n ≠ 0) : powers b (-(n : Rat)) = [pow b (const (-n))] := by
  have zero_ne : -(n : Rat) ≠ 0 := neg_ne_zero.mpr (by exact_mod_cast n_ne)
  have nonneg : (0 : Rat) ≤ n := Nat.cast_nonneg n
  rw [powers, if_neg zero_ne, if_neg (by linarith)]

namespace OpenQuotient
open FactoredProduct

/-- The quotient by an equal sum is a number. -/
theorem of_same_base (h : OpenQuotient name p s d b n c) (same : b = p.simplified name) :
    s.simplified name = const c := by
  have one := h.same_base same
  have divisor : d = p := by
    apply Poly.simplified_injective name
    rw [← h.divisor, one, Nat.cast_one, powers_one, multiple_one_singleton (isFactor_of_isBase h.base), same]
  have number : s = Poly.const c := by
    apply Poly.toPolynomial_injective
    apply mul_right_cancel₀ (Poly.toPolynomial_ne_zero h.divisor_ne)
    rw [← Poly.toPolynomial_mul (h.bounded.trans_lt Poly.degreeLimit_lt), ← h.product,
      Poly.toPolynomial_scale, Poly.toPolynomial_const, divisor]
  rw [number, Poly.simplified_const]

/-- The sum and the power under it come to the polynomial, in whatever order they stand. -/
theorem toNormal_ofPowers (h : OpenQuotient name p s d b n c) {l : List Expr}
    (perm : l.Perm [p.simplified name, pow b (const (-n))]) :
    (ofPowers c l).toNormal = s.simplified name := by
  have sum := isBase_of_isSum h.sum
  have entered : [p.simplified name, pow b (const (-n))].map divisorPower =
      [(p.simplified name, 1), (b, -(n : Rat))] := by
    have single := divisorPower_powers sum one_ne_zero
    rw [powers_one, List.map_singleton, List.singleton_inj] at single
    rw [List.map_cons, single]
    rfl
  by_cases same : b = p.simplified name
  · have one := h.same_base same
    subst same
    have single : (p.simplified name).divisorPower = (p.simplified name, 1) := (List.cons.inj entered).1
    have vanished : l.foldl enter [] = [(p.simplified name, 0)] := by
      have reciprocal : (pow (p.simplified name) (const (-1))).divisorPower = (p.simplified name, -1) := rfl
      rw [one, Nat.cast_one] at perm
      rcases List.perm_pair.mp perm with rfl | rfl <;>
        simp [enter, single, reciprocal, Tally.add, cmp_self]
    have nothing_divides : (FactoredProduct.mk c [(p.simplified name, 0)] []).cancelled? = none := rfl
    rw [FactoredProduct.toNormal, ofPowers, vanished, nothing_divides, h.of_same_base rfl]
    exact if_neg h.coeff_ne
  · have distinct : (l.map fun f => f.divisorPower.1).Nodup := by
      rw [(perm.map _).nodup_iff]
      have bases := congrArg (List.map Prod.fst) entered
      rw [List.map_map] at bases
      exact bases ▸ by simpa using Ne.symm same
    have exponents : (l.foldl enter []).Perm [(p.simplified name, 1), (b, -(n : Rat))] := by
      have listed : (l.foldl enter []).Perm ([] ++ l.map divisorPower) := foldl_enter_perm distinct
      rw [← entered]
      exact listed.trans (perm.map divisorPower)
    rw [toNormal, ofPowers, cancelled?_quotient sum h.base h.exponent_ne exponents h.coeff_ne h.divisor
      h.product h.quotient_ne h.divisor_ne h.degree_ne h.bounded]
    rfl

/-- The product of a sum and a power that the normal form may have to rewrite. -/
theorem normalProduct {next : Expr → Expr} (h : OpenQuotient name p s d b n (c * a)) (c_ne : c ≠ 0)
    (a_ne : a ≠ 0) (factor : f.isFactor = true) (f_ne : p.simplified name ≠ f)
    (kept : next (p.simplified name) = p.simplified name)
    (rewritten : next f = multiple a [pow b (const (-n))]) :
    Expr.normalProduct next (multiple c [p.simplified name, f]) = s.simplified name := by
  have sum := isBase_of_isSum h.sum
  have entry := isEntry_of_isBase sum
  have both {P : Expr → Prop} {x y : Expr} (first : P x) (second : P y) : ∀ g ∈ [x] ++ [y], P g :=
    List.forall_mem_cons.mpr ⟨first, List.forall_mem_singleton.mpr second⟩
  obtain ⟨l, perm, product⟩ := normalProduct_rewritten (by simpa using f_ne.symm) (both entry.factor factor)
    c_ne a_ne (List.forall_mem_singleton.mpr kept) rewritten (both entry.factor rfl) (both entry.number rfl)
  exact product.trans (h.toNormal_ofPowers perm)

end OpenQuotient

section Quotient
variable {t : Poly}

/-- A multiple of a sum and a power is read as the quotient, if the normal form of the
power divides the sum. -/
theorem ofExpr?_normalizeWithin (settled : Settled [p.simplified name, f]) (c_ne : c ≠ 0)
    (bounded : t.degree ≤ Poly.degreeLimit)
    (divides : ∀ depth, ∃ a b d, ∃ n : ℕ, a ≠ 0 ∧
      normalizeWithin limit depth f = multiple a [pow b (const (-n))] ∧
      ∀ c ≠ 0, OpenQuotient name p (t.scale c) d b n (c * a))
    (small : (multiple c [p.simplified name, f]).size ≤ limit) (depth : ℕ) :
    Poly.ofExpr? name (normalizeWithin limit (depth + 2) (multiple c [p.simplified name, f])) =
      some (t.scale c) := by
  have factor := settled.factor
  have f_ne : p.simplified name ≠ f := by
    rintro rfl
    exact (List.nodup_cons.mp settled.distinct).1 (List.mem_singleton_self _)
  have product (c : Rat) (c_ne : c ≠ 0) (depth : ℕ) :
      normalProduct (normalizeWithin limit depth) (multiple c [p.simplified name, f]) =
        (t.scale c).simplified name := by
    obtain ⟨a, b, d, n, a_ne, rewritten, quotient⟩ := divides depth
    exact (quotient c c_ne).normalProduct c_ne a_ne (factor f (by simp)) f_ne
      (normalizeWithin_simplified limit depth name p) rewritten
  have degree : (t.scale c).degree ≤ Poly.degreeLimit := (Poly.degree_scale t c_ne).trans_le bounded
  rw [normalizeWithin_multiple factor (by simp) c_ne small]
  split
  next opposite =>
    rw [product 1 one_ne_zero, Poly.scale_one, opposite, Poly.ofExpr?_negate_simplified name bounded]
    rfl
  next => rw [product c c_ne, Poly.ofExpr?_simplified name degree]

/-- The normal form of an expression that simplification writes in this way. -/
theorem ofExpr?_normalizeSized (settled : Settled [p.simplified name, f]) (c_ne : c ≠ 0)
    (bounded : t.degree ≤ Poly.degreeLimit)
    (divides : ∀ depth, ∃ a b d, ∃ n : ℕ, a ≠ 0 ∧
      normalizeWithin limit depth f = multiple a [pow b (const (-n))] ∧
      ∀ c ≠ 0, OpenQuotient name p (t.scale c) d b n (c * a))
    (evaluated : e.evaluate = multiple c [p.simplified name, f]) (small : e.simplify.size ≤ limit) :
    Poly.ofExpr? name (e.normalizeSized limit) = some (t.scale c) := by
  have simplified := settled.simplify_eq (isKey_sort_of_two settled.factor (by simp)) evaluated
  obtain ⟨depth, positive⟩ := Nat.exists_eq_add_of_le' e.simplify.size_pos
  rw [normalizeSized, positive]
  rw [simplified] at small ⊢
  exact ofExpr?_normalizeWithin settled c_ne bounded divides small depth

end Quotient

/-- A sum and a power of another base. -/
theorem settled_quotient (sum : (p.simplified name).isSum = true) (base : f.asPower.1 ≠ p.simplified name)
    (settled : Settled [f]) : Settled [p.simplified name, f] :=
  Poly.settled_sum sum settled (by simpa using base.symm) 1

/-- A sum is divided by a number by dividing its coefficients. -/
theorem dividedBy_const (product : p.toPolynomial = q.toPolynomial * s.toPolynomial)
    (sum : (p.simplified name).isSum = true) (c_ne : c ≠ 0) (number : q = Poly.const c) :
    (p.simplified name).dividedBy (const c) = s.simplified name := by
  have p_eq : p = s.scale c := by
    apply Poly.toPolynomial_injective
    rw [product, number, Poly.toPolynomial_const, Poly.toPolynomial_scale]
  have nonzero : (const c).isZero = false := by simpa [isZero] using c_ne
  have scaled : p.scale c⁻¹ = s := by
    rw [p_eq, Poly.scale_scale, inv_mul_cancel₀ c_ne, Poly.scale_one]
  rw [dividedBy_of_isSum sum nonzero]
  split
  next one =>
    rw [p_eq, Expr.const.inj ((isOne_iff _).mp one), Poly.scale_one]
  next =>
    have reciprocal := raise_multiple_powers name c_ne 0
    rw [neg_zero, powers_zero, multiple_nil, multiple_nil] at reciprocal
    rw [reciprocal, Poly.simplified_times_const name p (inv_ne_zero c_ne), scaled]

/-- Below a power of the symbol a sum is kept until lowest terms are taken. -/
theorem settled_over_powers {d : ℕ} (sum : (p.simplified name).isSum = true) (d_ne : d ≠ 0) :
    Settled [p.simplified name, pow (var name) (const (-d))] := by
  have settled := settled_powers name (-d)
  rw [powers_neg _ d_ne] at settled
  refine settled_quotient sum ?_ settled
  intro same
  rw [← same] at sum
  cases sum

theorem dividedBy_powers {d : ℕ} (sum : (p.simplified name).isSum = true) (c_ne : c ≠ 0) (d_ne : d ≠ 0) :
    (p.simplified name).dividedBy (multiple c (powers (var name) d)) =
      multiple c⁻¹ [p.simplified name, pow (var name) (const (-d))] := by
  have key := isKey_powers name d
  have proper : powers (var name) (d : ℚ) ≠ [] := powers_ne_nil (by exact_mod_cast d_ne)
  have notOne : (multiple c (powers (var name) d)).isOne = false := by
    by_contra one
    exact proper (eq_one_of_isOne_multiple key.factors (by simpa using one)).2
  rw [dividedBy_of_isSum sum (isZero_multiple key.factors c_ne), notOne, if_neg Bool.false_ne_true,
    raise_multiple_powers name c_ne, powers_neg _ d_ne]
  exact times_of_isSum sum (settled_over_powers sum d_ne).toIndependent c⁻¹

theorem raise_reciprocal (sum : (q.simplified name).isSum = true) :
    (q.simplified name).raise (const (-1)) = pow (q.simplified name) (const (-1)) := by
  have raised := raise_sum_int sum (k := -1) (by decide) (by decide)
  rwa [Int.cast_neg, Int.cast_one] at raised

/-- A sum divided by itself is one. -/
theorem dividedBy_self (sum : (q.simplified name).isSum = true) :
    (q.simplified name).dividedBy (q.simplified name) = one := by
  have base := isBase_of_isSum sum
  have factor := isFactor_of_isBase base
  have power : powers (q.simplified name) (-1) = [pow (q.simplified name) (const (-1))] := rfl
  have product := times_powers (l := []) (m := []) (b := q.simplified name) (i := 1) (j := -1) (q := 1)
    (r := 1) base ⟨List.forall_mem_nil _, .nil⟩ List.not_mem_nil (by
      rw [powers_one, power]
      exact .of_factors (List.forall_mem_singleton.mpr factor) (List.forall_mem_singleton.mpr rfl)
        (by simp) (by simp) 1 1)
  rw [List.append_nil, List.append_nil, powers_one, power, multiple_one_singleton factor,
    multiple_one_singleton rfl, one_mul, add_neg_cancel, powers_zero, List.append_nil,
    List.append_nil, multiple_nil] at product
  rw [dividedBy_of_isSum sum (isZero_of_isSum sum), isOne_of_isSum sum, if_neg Bool.false_ne_true,
    raise_reciprocal sum, product]
  rfl

/-- Over an equal sum it leaves one, which is then the other factor. -/
theorem dividedBy_multiple_of_itself (sum : (q.simplified name).isSum = true) (q_ne : q.isZero = false)
    (small : q.degree + s.degree < Poly.exponentBound) (same : q = q.mul s) :
    ((q.mul s).simplified name).dividedBy (q.simplified name) = s.simplified name := by
  have one : s = Poly.one := by
    apply Poly.toPolynomial_injective
    apply mul_left_cancel₀ (Poly.toPolynomial_ne_zero q_ne)
    rw [← Poly.toPolynomial_mul small, ← same, Poly.toPolynomial_one, mul_one]
  rw [← same, dividedBy_self sum, one]
  rfl

/-- The exponents of powers of the symbol are subtracted. -/
theorem dividedBy_monomial (name : String) {d i : ℕ} (small : d + i < Poly.exponentBound) (a_ne : a ≠ 0)
    (c_ne : c ≠ 0) : (((Poly.monomial d c).mul (Poly.monomial i a)).simplified name).dividedBy
      ((Poly.monomial d c).simplified name) = (Poly.monomial i a).simplified name := by
  have d_small : d < Poly.exponentBound := by omega
  have i_small : i < Poly.exponentBound := by omega
  have product : (Poly.monomial d c).mul (Poly.monomial i a) = Poly.monomial (d + i) (c * a) := by
    have degrees : (Poly.monomial d c).degree + (Poly.monomial i a).degree < Poly.exponentBound := by
      rwa [Poly.degree_monomial d_small c_ne, Poly.degree_monomial i_small a_ne]
    apply Poly.toPolynomial_injective
    rw [Poly.toPolynomial_mul degrees, Poly.toPolynomial_monomial d_small, Poly.toPolynomial_monomial i_small,
      Polynomial.monomial_mul_monomial, Poly.toPolynomial_monomial small]
  rw [product, Poly.simplified_monomial name small, Poly.simplified_monomial name d_small,
    Poly.simplified_monomial name i_small, dividedBy_multiple name (mul_ne_zero c_ne a_ne) c_ne,
    mul_div_cancel_left₀ a c_ne, Nat.cast_add, add_sub_cancel_left]

/-- Over another sum a sum is kept until lowest terms are taken. -/
theorem settled_over_sum (sum : (p.simplified name).isSum = true) (below : (q.simplified name).isSum = true)
    (different : q ≠ p) : Settled [p.simplified name, pow (q.simplified name) (const (-1))] := by
  have settled := settled_pow_sum below (k := -1) (by decide) (by decide)
  rw [Int.cast_neg, Int.cast_one] at settled
  exact settled_quotient sum (fun same => different (Poly.simplified_injective name same)) settled

theorem dividedBy_sum (sum : (p.simplified name).isSum = true) (below : (q.simplified name).isSum = true)
    (different : q ≠ p) : (p.simplified name).dividedBy (q.simplified name) =
      multiple 1 [p.simplified name, pow (q.simplified name) (const (-1))] := by
  have product := times_of_isSum sum (settled_over_sum sum below different).toIndependent 1
  rw [multiple_one_singleton rfl] at product
  rw [dividedBy_of_isSum sum (isZero_of_isSum below), isOne_of_isSum below, if_neg Bool.false_ne_true,
    raise_reciprocal below, product]

/-- An expression that simplification writes as a polynomial is its own normal form. -/
theorem ofExpr?_normalizeSized_simplified (evaluated : e.evaluate = s.simplified name)
    (bounded : s.degree ≤ Poly.degreeLimit) (limit : ℕ) :
    Poly.ofExpr? name (e.normalizeSized limit) = some s := by
  have simplified := simplify_of_evaluate evaluated (Poly.plainTerms_simplified name s)
    (Poly.pass_simplified name s)
  rw [normalizeSized, simplified, normalizeWithin_simplified, Poly.ofExpr?_simplified name bounded]

section Cancelled
variable (bounded : q.degree + s.degree ≤ Poly.degreeLimit) (s_ne : s.isZero = false)
include bounded s_ne

theorem cancelled_over_powers {d : ℕ} (small_d : d < Poly.exponentBound)
    (sum : ((q.mul s).simplified name).isSum = true) (c_ne : c ≠ 0) (d_ne : d ≠ 0) (divisor : q = Poly.monomial d c)
    (evaluated : e.evaluate = multiple c⁻¹ [(q.mul s).simplified name, pow (var name) (const (-d))])
    (small : e.simplify.size ≤ limit) :
    Poly.ofExpr? name (e.normalizeSized limit) = some s := by
  have settled := settled_over_powers sum d_ne
  have degree : (s.scale c).degree ≤ Poly.degreeLimit := by
    rw [Poly.degree_scale s c_ne]
    omega
  have same : (s.scale c).scale c⁻¹ = s := by
    rw [Poly.scale_scale, inv_mul_cancel₀ c_ne, Poly.scale_one]
  conv_rhs => rw [← same]
  apply ofExpr?_normalizeSized settled (inv_ne_zero c_ne) degree _ evaluated small
  intro depth
  refine ⟨1, var name, .monomial d 1, d, one_ne_zero, ?_, fun c' c'_ne => ?_⟩
  · have kept := normalizeWithin_powers limit depth name (-d)
    rw [powers_neg _ d_ne, List.forall_mem_singleton] at kept
    rw [kept, multiple_one_singleton rfl]
  · have power_eq := Poly.toPolynomial_monomial small_d 1
    have power_ne : (Poly.monomial d 1).isZero = false := by
      apply Poly.isZero_eq_false
      rw [power_eq]
      exact (Polynomial.monomial_eq_zero_iff (1 : ℚ) d).not.mpr one_ne_zero
    have quotient_ne := Poly.isZero_scale c'_ne (Poly.isZero_scale c_ne s_ne)
    have quotient_degree : ((s.scale c).scale c').degree = s.degree := by
      rw [Poly.degree_scale _ c'_ne, Poly.degree_scale _ c_ne]
    have degree := Poly.degree_monomial small_d one_ne_zero
    have divisor_degree : q.degree = d := divisor ▸ Poly.degree_monomial small_d c_ne
    have divisor_eq : q.toPolynomial = Polynomial.monomial d c := divisor ▸ Poly.toPolynomial_monomial small_d c
    have within : ((s.scale c).scale c').degree + (Poly.monomial d 1).degree ≤ Poly.degreeLimit := by
      rw [quotient_degree, degree]
      omega
    exact {
      sum := sum
      base := rfl
      exponent_ne := d_ne
      same_base := by
        intro same
        rw [← same] at sum
        cases sum
      coeff_ne := mul_ne_zero c'_ne one_ne_zero
      divisor := (Poly.simplified_monomial name small_d _).symm
      product := by
        apply Poly.toPolynomial_injective
        rw [Poly.toPolynomial_scale, Poly.toPolynomial_mul (bounded.trans_lt Poly.degreeLimit_lt),
          Poly.toPolynomial_mul (within.trans_lt Poly.degreeLimit_lt), Poly.toPolynomial_scale,
          Poly.toPolynomial_scale, power_eq, divisor_eq]
        simp only [← Polynomial.C_mul_X_pow_eq_monomial, mul_one, map_one]
        ring
      quotient_ne := quotient_ne
      divisor_ne := power_ne
      degree_ne := by rwa [degree]
      bounded := within }

theorem cancelled_over_sum (q_ne : q.isZero = false) (sum : ((q.mul s).simplified name).isSum = true)
    (below : (q.simplified name).isSum = true) (different : q ≠ q.mul s)
    (evaluated : e.evaluate =
      multiple 1 [(q.mul s).simplified name, pow (q.simplified name) (const (-1))])
    (small : e.simplify.size ≤ limit) :
    Poly.ofExpr? name (e.normalizeSized limit) = some s := by
  have settled := settled_over_sum sum below different
  conv_rhs => rw [← Poly.scale_one s]
  apply ofExpr?_normalizeSized settled one_ne_zero (by omega) _ evaluated small
  intro depth
  obtain ⟨a, a_ne, -, rewritten⟩ := normalizeWithin_pow_sum below (k := -1) (by decide) (by decide)
    limit depth
  rw [Int.cast_neg, Int.cast_one, neg_neg, zpow_one] at rewritten
  refine ⟨a, (q.scale a).simplified name, q.scale a, 1, a_ne, ?_, fun c c_ne => ?_⟩
  · rw [rewritten, Nat.cast_one]
  · have base := isBase_of_isSum (Poly.isSum_simplified_scale a_ne below)
    have quotient_ne := Poly.isZero_scale c_ne s_ne
    have divisor_ne := Poly.isZero_scale a_ne q_ne
    have within : (s.scale c).degree + (q.scale a).degree ≤ Poly.degreeLimit := by
      rw [Poly.degree_scale s c_ne, Poly.degree_scale q a_ne]
      omega
    exact {
      sum := sum
      base := base
      exponent_ne := one_ne_zero
      same_base := fun _ => rfl
      coeff_ne := mul_ne_zero c_ne a_ne
      divisor := by rw [Nat.cast_one, powers_one, multiple_one_singleton (isFactor_of_isBase base)]
      product := by
        apply Poly.toPolynomial_injective
        rw [Poly.toPolynomial_scale, Poly.toPolynomial_mul (bounded.trans_lt Poly.degreeLimit_lt),
          Poly.toPolynomial_mul (within.trans_lt Poly.degreeLimit_lt), Poly.toPolynomial_scale,
          Poly.toPolynomial_scale, Polynomial.C_mul]
        ring
      quotient_ne := quotient_ne
      divisor_ne := divisor_ne
      degree_ne := by
        rw [Poly.degree_scale q a_ne]
        exact Poly.degree_ne_zero_of_isSum below
      bounded := within }

end Cancelled

theorem isZero_simplified (name : String) (q_ne : q ≠ Poly.zero) : (q.simplified name).isZero = false := by
  by_contra vanishes
  rw [Bool.not_eq_false, isZero_iff] at vanishes
  exact q_ne (Poly.simplified_injective name vanishes)

/-- The quotient of a product of two polynomials by the one comes to the other, within any
limit that the simplified quotient keeps. -/
theorem exact_quotient_is_cancelled (name : String) (q s : Poly) (q_ne : q ≠ Poly.zero)
    (bounded : s = Poly.zero ∨ q.degree + s.degree ≤ Poly.degreeLimit) (limit : ℕ)
    (small : (div ((q.mul s).toExpr name) (q.toExpr name)).simplify.size ≤ limit) :
    Poly.ofExpr? name ((div ((q.mul s).toExpr name) (q.toExpr name)).normalizeSized limit) = some s := by
  have evaluated : (div ((q.mul s).toExpr name) (q.toExpr name)).evaluate =
      ((q.mul s).simplified name).dividedBy (q.simplified name) := by
    rw [evaluate, Poly.evaluate_toExpr, Poly.evaluate_toExpr]
  have divisor_ne := isZero_simplified name q_ne
  by_cases s_ne : s = Poly.zero
  · have product : q.mul s = Poly.zero := by
      apply Poly.residue_injective
      rw [s_ne, Poly.residue_mul, Poly.residue_zero, mul_zero]
    apply ofExpr?_normalizeSized_simplified _ (s_ne ▸ Nat.zero_le _)
    rw [evaluated, product, s_ne]
    exact zero_dividedBy divisor_ne
  replace bounded := bounded.resolve_left s_ne
  have fits := bounded.trans_lt Poly.degreeLimit_lt
  have nonzero {p : Poly} (p_ne : p ≠ Poly.zero) : p.isZero = false := Poly.isZero_eq_false_iff.mpr p_ne
  have written (same : ((q.mul s).simplified name).dividedBy (q.simplified name) = s.simplified name) :=
    ofExpr?_normalizeSized_simplified (evaluated.trans same) (by omega) limit
  rcases Poly.simplified_cases name q with vanishes | ⟨d, c, d_small, c_ne, divisor⟩ | below
  · exact absurd vanishes q_ne
  · rcases Poly.simplified_cases name s with vanishes | ⟨i, a, i_small, a_ne, quotient⟩ | sum
    · exact absurd vanishes s_ne
    · apply written
      rw [divisor, quotient, Poly.degree_monomial d_small c_ne, Poly.degree_monomial i_small a_ne] at fits
      rw [divisor, quotient]
      exact dividedBy_monomial name fits a_ne c_ne
    · have shape : q.simplified name = multiple c (powers (var name) d) := by
        rw [divisor, Poly.simplified_monomial name d_small]
      have sum : ((q.mul s).simplified name).isSum = true := by
        have symmetric : s.mul q = q.mul s := by
          apply Poly.residue_injective
          rw [Poly.residue_mul, Poly.residue_mul, mul_comm]
        exact symmetric ▸ Poly.isSum_simplified_mul sum (nonzero q_ne) (Nat.add_comm _ _ ▸ fits)
      by_cases d_ne : d = 0
      · apply written
        rw [shape, d_ne, Nat.cast_zero, powers_zero, multiple_nil]
        exact dividedBy_const (Poly.toPolynomial_mul fits) sum c_ne (by rw [divisor, d_ne]; rfl)
      · rw [shape, dividedBy_powers sum c_ne d_ne] at evaluated
        exact cancelled_over_powers bounded (nonzero s_ne) d_small sum c_ne d_ne divisor evaluated small
  · have sum := Poly.isSum_simplified_mul below (nonzero s_ne) fits
    by_cases same : q = q.mul s
    · exact written (dividedBy_multiple_of_itself below (nonzero q_ne) fits same)
    · rw [dividedBy_sum sum below same] at evaluated
      exact cancelled_over_sum bounded (nonzero s_ne) (nonzero q_ne) sum below same evaluated small

/-- `(2x² - x - 1) / (2x + 1)` is `x - 1`. -/
theorem linear_quotient_is_cancelled :
    let q := Poly.one.add (Poly.monomial 1 2)
    let s := (Poly.const (-1)).add (Poly.monomial 1 1)
    let e := div ((q.mul s).toExpr "x") (q.toExpr "x")
    q ≠ Poly.zero ∧ q.degree + s.degree ≤ Poly.degreeLimit ∧ e.simplify.size ≤ normalSizeLimit ∧
      Poly.ofExpr? "x" e.normalize = some s := by
  intro q s e
  have q_ne : q ≠ Poly.zero := by decide +kernel
  have bounded : q.degree + s.degree ≤ Poly.degreeLimit := by decide +kernel
  have small : e.simplify.size ≤ normalSizeLimit := by decide +kernel
  exact ⟨q_ne, bounded, small,
    exact_quotient_is_cancelled "x" q s q_ne (.inr bounded) normalSizeLimit small⟩

end SymbolicAlgebra.Expr
