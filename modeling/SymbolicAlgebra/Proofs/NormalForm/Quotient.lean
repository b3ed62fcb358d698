import SymbolicAlgebra.Proofs.NormalForm.Sum
import SymbolicAlgebra.Proofs.Polynomial.Reading

/-! Lowest terms. Where the denominator divides the numerator it is their greatest common
divisor up to a number, so the numerator becomes the quotient and the denominator
becomes one. -/

namespace SymbolicAlgebra.Expr
open SymbolicAlgebra.Poly (simplified)

variable {name : String} {p q s t d : Poly} {c : Rat}

/-- Exact quotients are divided by the leading coefficient of the denominator. -/
theorem lowestTerms?_of_exactQuotient? (name : String) (left : p.exactQuotient? d = some s)
    (right : q.exactQuotient? d = some t) (s_ne : s.isZero = false) (t_ne : t.isZero = false) :
    lowestTerms? name p q d =
      some ((s.scale t.leadingCoeff⁻¹).simplified name, t.monic.simplified name) := by
  have ratio_ne := div_ne_zero (Poly.leadingCoeff_ne_zero s_ne) (Poly.leadingCoeff_ne_zero t_ne)
  have scaled : s.monic.scale (s.leadingCoeff / t.leadingCoeff) = s.scale t.leadingCoeff⁻¹ := by
    conv_rhs => rw [← Poly.scale_monic s]
    rw [Poly.scale_scale, div_eq_inv_mul]
  rw [lowestTerms?, left, right, ← scaled]
  simp only [Option.bind_some, Option.map_some, Poly.simplify_toExpr,
    Poly.const_times_simplified name s.monic ratio_ne]
  split
  next one => rw [one, Poly.scale_one]
  next => rfl

/-- The lowest terms of a multiple of the denominator. -/
theorem lowestTerms?_product (name : String) (s_ne : s.isZero = false) (d_ne : d.isZero = false)
    (small : s.degree + d.degree < Poly.exponentBound) : lowestTerms? name (s.mul d) d d.monic = some (s.simplified name, one) := by
  have lead_ne := Poly.leadingCoeff_ne_zero d_ne
  have numerator : (s.mul d).exactQuotient? d.monic = some (s.scale d.leadingCoeff) := by
    apply Poly.exactQuotient?_product (Poly.isZero_monic d_ne)
    rw [Poly.toPolynomial_scale, mul_right_comm, Poly.leadingCoeff_mul_monic, Poly.toPolynomial_mul small,
      mul_comm]
  have denominator : d.exactQuotient? d.monic = some (.const d.leadingCoeff) := by
    apply Poly.exactQuotient?_product (Poly.isZero_monic d_ne)
    rw [Poly.toPolynomial_const, Poly.leadingCoeff_mul_monic]
  have constant_ne := Poly.isZero_exactQuotient? d_ne denominator
  have unit : Poly.one.simplified name = one :=
    Poly.simplified_const name 1
  rw [lowestTerms?_of_exactQuotient? name numerator denominator (Poly.isZero_scale lead_ne s_ne) constant_ne,
    Poly.leadingCoeff_const, Poly.scale_scale, inv_mul_cancel₀ lead_ne, Poly.scale_one,
    Poly.monic_const lead_ne, unit]

theorem cancelGcd?_product (s_ne : s.isZero = false) (d_ne : d.isZero = false) (degree_ne : d.degree ≠ 0)
    (bounded : s.degree + d.degree ≤ Poly.degreeLimit) :
    cancelGcd? ((s.mul d).simplified name) (d.simplified name) = some (s.simplified name, one) := by
  have small := bounded.trans_lt Poly.degreeLimit_lt
  have degree := Poly.degree_mul s_ne d_ne small
  have names := Poly.names_simplified name d
  have symbols : (div ((s.mul d).simplified name) (d.simplified name)).symbols = [name] := by
    apply Poly.symbols_eq_singleton
    · exact List.forall_mem_append.mpr ⟨(Poly.names_simplified name (s.mul d)).1, names.1⟩
    · intro none
      exact names.2 degree_ne (List.append_eq_nil_iff.mp none).2
  have product_ne := Poly.isZero_mul s_ne d_ne small
  have gcd : (s.mul d).gcd d = d.monic := Poly.gcd_product d_ne (Poly.toPolynomial_mul small)
  rw [cancelGcd?, symbols]
  simp only [Poly.ofExpr?_simplified name (degree.trans_le bounded),
    Poly.ofExpr?_simplified name ((Nat.le_add_left _ _).trans bounded), Option.bind_some, d_ne,
    product_ne, gcd, Poly.degree_monic, degree_ne, Bool.false_eq_true, if_false]
  exact lowestTerms?_product name s_ne d_ne small

theorem quotient_one (e : Expr) : e.quotient one = e := rfl

end SymbolicAlgebra.Expr

namespace SymbolicAlgebra.FactoredProduct
open SymbolicAlgebra.Expr

variable {name : String} {b : Expr} {p s d : Poly} {c : Rat} {n : ℕ} {exponents : Exponents}

/-- A sum over the power of a base that divides it comes to the quotient. -/
theorem cancelled?_quotient (sum : (p.simplified name).isBase = true) (base : b.isBase = true)
    (n_ne : n ≠ 0) (perm : exponents.Perm [(p.simplified name, 1), (b, -(n : Rat))]) (c_ne : c ≠ 0)
    (denominator : multiple 1 (powers b n) = d.simplified name) (product : p.scale c = s.mul d)
    (s_ne : s.isZero = false) (d_ne : d.isZero = false) (degree_ne : d.degree ≠ 0)
    (bounded : s.degree + d.degree ≤ Poly.degreeLimit) :
    (FactoredProduct.mk c exponents []).cancelled? = some (s.simplified name) := by
  have positive : (0 : Rat) < n := by exact_mod_cast Nat.pos_of_ne_zero n_ne
  have multiplied : (exponents.filter fun entry => 0 < entry.2) = [(p.simplified name, 1)] := by
    rw [← List.perm_singleton]
    refine (perm.filter _).trans ?_
    simp [positive.le]
  have divided : (exponents.filter fun entry => entry.2 < 0) = [(b, -(n : Rat))] := by
    rw [← List.perm_singleton]
    refine (perm.filter _).trans ?_
    simp [positive]
  have numerator : (FactoredProduct.mk c exponents []).numerator = (s.mul d).simplified name := by
    rw [FactoredProduct.numerator]
    dsimp only
    have raised : (p.simplified name).raise (.const 1) = p.simplified name :=
      (raise_of_isBase sum 1).trans ((if_neg one_ne_zero).trans (if_pos rfl))
    rw [multiplied, Exponents.toExpr_eq c_ne]
    change (Expr.const c).times ((p.simplified name).raise (.const 1)) = _
    rw [raised, Poly.const_times_simplified name p c_ne, product]
  have divisors : (FactoredProduct.mk c exponents []).divisors = [(b, (n : Rat))] := by
    rw [FactoredProduct.divisors]
    dsimp only
    rw [divided, List.map_singleton, neg_neg]
  have divisor : Exponents.toExpr 1 [(b, (n : Rat))] = d.simplified name := by
    have entered := divisorPower_powers base positive.ne'
    rw [← denominator]
    apply Exponents.toExpr_entered (isEntry_powers base n) (entered ▸ .refl _) _ _ one_ne_zero (.inl rfl)
    · intro f member
      have listed := List.mem_map_of_mem (f := divisorPower) member
      rw [entered, List.mem_singleton] at listed
      rw [listed]
      exact positive.ne'
    · obtain ⟨f, single, power, -⟩ := exists_powers base positive.ne'
      rw [single]
      exact ⟨List.forall_mem_singleton.mpr power, List.nodup_singleton _⟩
  rw [cancelled?, divisors, divisor, numerator]
  simp only [List.isEmpty_cons, Bool.false_eq_true, if_false, Poly.raisesCompound_simplified, Bool.or_self,
    cancelGcd?_product s_ne d_ne degree_ne bounded, Option.map_some, quotient_one]

end SymbolicAlgebra.FactoredProduct
