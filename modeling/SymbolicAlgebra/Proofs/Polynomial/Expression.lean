import Mathlib.Algebra.Polynomial.RingDivision
import SymbolicAlgebra.NormalForm.Cancellation
import SymbolicAlgebra.Proofs.FixedPoint
import SymbolicAlgebra.Proofs.Polynomial.Division

/-! The expression that simplification writes for a polynomial. It collects the powers of
the symbol with their coefficients, so different polynomials have different expressions,
and up to the limit of the degree the polynomial can be read back. -/

namespace SymbolicAlgebra.Expr

variable {b : Expr} {name : String} {p q : Rat}

theorem powers_injective (base : b.isBase = true) (same : powers b p = powers b q) : p = q := by
  have notPower (k : Rat) : b ≠ pow b (const k) := by
    intro shape
    rw [shape] at base
    cases base
  unfold powers at same
  split at same <;> split at same <;> (try split at same) <;> (try split at same) <;>
    simp_all [Ne.symm (notPower _)]

theorem isKey_powers (name : String) (k : Rat) : IsKey (powers (var name) k) := by
  unfold powers
  split
  · exact isKey_nil
  split
  · exact { factors := List.forall_mem_singleton.mpr rfl, sorted := rfl, plain := rfl }
  · exact { factors := List.forall_mem_singleton.mpr rfl, sorted := rfl, plain := rfl }

theorem Settled.powers {l : List Expr} (base : b.isBase = true) (plain : b.isTrigonometric = false)
    (evaluated : b.evaluate = b) (h : Settled l) (new : b ∉ l.map fun f => f.asPower.1) (k : Rat) :
    Settled (powers b k ++ l) where
  toIndependent := h.toIndependent.powers base new k
  evaluated := by
    refine List.forall_mem_append.mpr ⟨?_, h.evaluated⟩
    unfold Expr.powers
    split
    · exact List.forall_mem_nil _
    next k_ne =>
      split
      · exact List.forall_mem_singleton.mpr evaluated
      next one_ne =>
        have number : (const k).evaluate = const k := rfl
        rw [List.forall_mem_singleton, evaluate, evaluated, number, raise_of_isBase base, if_neg k_ne,
          if_neg one_ne]
  plain := by
    refine List.forall_mem_append.mpr ⟨?_, h.plain⟩
    unfold Expr.powers
    split
    · exact List.forall_mem_nil _
    split
    · exact List.forall_mem_singleton.mpr plain
    · rw [List.forall_mem_singleton]
      cases b with
      | app f a => cases f <;> first | rfl | cases plain
      | _ => rfl

theorem settled_powers (name : String) (k : Rat) : Settled (powers (var name) k) := by
  have settled := Settled.powers (b := var name) rfl rfl rfl .nil List.not_mem_nil k
  rwa [List.append_nil] at settled

end SymbolicAlgebra.Expr

namespace SymbolicAlgebra.Poly
open SymbolicAlgebra.Expr Tally

variable {name : String} {p q : Poly} {e : Expr} {c : Rat} {d n : ℕ}

/-- The coefficients of a polynomial as amounts of the powers of its symbol. -/
def amounts (name : String) (p : Poly) : LikeTerms :=
  p.terms.map fun t => (powers (.var name) t.1, t.2)

/-- The expression that simplification writes for a polynomial. -/
def simplified (name : String) (p : Poly) : Expr := collected (p.amounts name)

theorem exists_term {entry : List Expr × Rat} (member : entry ∈ p.amounts name) :
    ∃ t ∈ p.terms, entry.1 = powers (.var name) t.1 := by
  obtain ⟨t, listed, rfl⟩ := List.mem_map.mp member
  exact ⟨t, listed, rfl⟩

theorem keyed_amounts (name : String) (p : Poly) : Keyed (p.amounts name) := by
  intro entry member
  obtain ⟨t, -, key⟩ := exists_term member
  exact key ▸ isKey_powers name t.1

theorem settled_amounts (name : String) (p : Poly) : ∀ entry ∈ p.amounts name, Settled entry.1 := by
  intro entry member
  obtain ⟨t, -, key⟩ := exists_term member
  exact key ▸ settled_powers name t.1

theorem pass_simplified (name : String) (p : Poly) : (p.simplified name).pass = p.simplified name :=
  pass_collected (keyed_amounts name p) (settled_amounts name p)

/-- The weight that picks a coefficient out of a sum. -/
def coefficientAt (name : String) (n : ℕ) (l : List Expr) : ℚ := if l = powers (.var name) n then 1 else 0

theorem coefficientAt_powers (name : String) (n d : ℕ) :
    coefficientAt name n (powers (.var name) d) = if d = n then 1 else 0 := by
  have iff : powers (.var name) (d : Rat) = powers (.var name) n ↔ d = n := by
    constructor
    · intro same
      exact_mod_cast powers_injective rfl same
    · rintro rfl
      rfl
  simp only [coefficientAt, iff]

theorem weighted_amounts (name : String) (n : ℕ) (p : Poly) :
    weighted (coefficientAt name n) (p.amounts name) = p.coeff n := by
  have terms : ∀ terms : List (ℕ × ℚ), terms.Pairwise (fun s t => s.1 < t.1) →
      weighted (coefficientAt name n) (terms.map fun t => (powers (.var name) t.1, t.2)) =
        coeffIn n terms := by
    intro terms ascending
    induction terms with
    | nil => rfl
    | cons t rest ih =>
        obtain ⟨least, sorted⟩ := List.pairwise_cons.mp ascending
        rw [List.map_cons, weighted_cons, ih sorted, coefficientAt_powers, coeffIn, Rat.cast_id]
        split
        next same => rw [coeffIn_eq_zero (same ▸ least), mul_one, add_zero]
        next => rw [mul_zero, zero_add]
  exact terms p.terms p.ascending

/-- The coefficients can be read off the expression. -/
theorem weighted_simplified (name : String) (n : ℕ) (p : Poly) :
    weighted (coefficientAt name n) (p.simplified name).amounts = p.coeff n := by
  rw [simplified, (collected_amounts (keyed_amounts name p).terms).2, weighted_amounts]

theorem simplified_injective (name : String) (same : p.simplified name = q.simplified name) : p = q := by
  apply eq_of_coeff
  intro n
  rw [← weighted_simplified name, same, weighted_simplified]

theorem terms_monomial (small : d < exponentBound) (c_ne : c ≠ 0) : (monomial d c).terms = [(d, c)] := by
  have word : (monomial d c).terms = [(wrap d, c)] := by
    rw [monomial, addTerm, dif_neg c_ne]
    rfl
  rw [word, wrap_eq small]

theorem simplified_monomial (name : String) (small : d < exponentBound) (c : Rat) :
    (monomial d c).simplified name = multiple c (powers (.var name) d) := by
  by_cases vanishes : c = 0
  · rw [vanishes]
    rfl
  · rw [simplified, amounts, terms_monomial small vanishes, (isKey_powers name d).multiple_eq]
    rfl

theorem simplified_const (name : String) (c : Rat) : (const c).simplified name = .const c := by
  rw [const, simplified_monomial name (by decide), Nat.cast_zero, powers_zero, multiple_nil]

@[simp] theorem simplified_zero (name : String) : zero.simplified name = .zero := rfl

theorem sumOf_simplified (name : String) (p : Poly) :
    SumOf (fun l => ∃ d ≤ p.degree, l = powers (.var name) d) (p.simplified name) := by
  refine (sumOf_collected (keyed_amounts name p).terms).imp ?_
  rintro l ⟨c, listed⟩
  obtain ⟨t, member, key⟩ := exists_term listed
  exact ⟨t.1, degree_le_of_mem member, key⟩

/-- A polynomial has no term, one term, or is written as a sum. -/
theorem simplified_cases (name : String) (p : Poly) :
    p = zero ∨ (∃ d c, d < exponentBound ∧ c ≠ 0 ∧ p = monomial d c) ∨
      (p.simplified name).isSum = true := by
  have written := sumOf_simplified name p
  generalize shape : p.simplified name = e at written
  cases written with
  | zero => exact .inl (simplified_injective name (shape.trans (simplified_zero name).symm))
  | multiple proper c_ne =>
      obtain ⟨d, le, rfl⟩ := proper
      have small := le.trans_lt p.degree_lt
      refine .inr (.inl ⟨d, _, small, c_ne, simplified_injective name ?_⟩)
      rw [shape, simplified_monomial name small]
  | add => exact .inr (.inr rfl)

/-- A power of the symbol, as it stands in a term. -/
def powerExpr (name : String) (d : ℕ) : Expr :=
  if d = 1 then .var name else .pow (.var name) (.const d)

theorem powers_eq (name : String) (d_ne : d ≠ 0) : powers (.var name) d = [powerExpr name d] := by
  have d_ne' : (d : ℚ) ≠ 0 := by exact_mod_cast d_ne
  rw [powers, if_neg d_ne', powerExpr]
  split
  next one => rw [if_pos (by exact_mod_cast one)]
  next one_ne => rw [if_neg (by exact_mod_cast one_ne)]

theorem sortedProduct_powers (name : String) (d_ne : d ≠ 0) :
    sortedProduct (powers (.var name) d) = powerExpr name d := by
  have factors := (isKey_powers name d).factors
  rw [powers_eq name d_ne] at factors ⊢
  exact sortedProduct_singleton (atoms factors _ (List.mem_singleton_self _))

theorem evaluate_powerExpr (name : String) (d_ne : d ≠ 0) :
    (powerExpr name d).evaluate = multiple 1 (powers (.var name) d) := by
  have settled := (settled_powers name d).evaluated
  rw [powers_eq name d_ne] at settled
  rw [multiple_one (isKey_powers name d).toIsMonic, sortedProduct_powers name d_ne]
  exact settled _ (List.mem_singleton_self _)

theorem evaluate_termExpr (name : String) (t : ℕ × ℚ) :
    (termExpr name t).evaluate = multiple t.2 (powers (.var name) t.1) := by
  obtain ⟨d, c⟩ := t
  rw [termExpr]
  dsimp only
  split
  next zero =>
    rw [zero, Nat.cast_zero, powers_zero, multiple_nil]
    rfl
  next d_ne =>
    have power : (if d = 1 then Expr.var name else .pow (.var name) (.const d)).evaluate =
        multiple 1 (powers (.var name) d) := evaluate_powerExpr name d_ne
    split
    next one => rw [power, one]
    next =>
      have number : (Expr.const c).evaluate = .const c := rfl
      have notSum := (isKey_powers name d).isSum_multiple 1
      rw [evaluate, power, number, const_times_multiple (settled_powers name d).toIndependent c 1
        (by simp [notSum]), mul_one]

theorem toExpr_eq_sum (name : String) (p : Poly) : p.toExpr name = sum (p.terms.map (termExpr name)) := by
  rw [toExpr]
  split
  next nothing => rw [nothing]; rfl
  next listed => rw [listed]; rfl

theorem evaluate_toExpr (name : String) (p : Poly) : (p.toExpr name).evaluate = p.simplified name := by
  have evaluated := collected_sum (P := fun _ => True) (g := evaluate) (t := termExpr name)
    (G := fun t => [(powers (.var name) t.1, t.2)]) (L := p.terms) (fun _ _ _ => rfl)
    (fun _ _ _ => trivial) rfl (fun t _ => List.forall_mem_singleton.mpr (isKey_powers name t.1))
    (fun t _ => by rw [evaluate_termExpr, (isKey_powers name t.1).multiple_eq]) trivial
  rw [toExpr_eq_sum, evaluated, ← List.map_eq_flatMap, simplified, amounts]

theorem plainTerms_simplified (name : String) (p : Poly) : PlainTerms (p.simplified name) := by
  refine plainTerms_sumOf (sumOf_simplified name p) ?_
  rintro l ⟨d, -, rfl⟩
  exact ⟨isKey_powers name d, (settled_powers name d).plain⟩

theorem simplify_toExpr (name : String) (p : Poly) : (p.toExpr name).simplify = p.simplified name :=
  simplify_of_evaluate (evaluate_toExpr name p) (plainTerms_simplified name p) (pass_simplified name p)

theorem terms_scale (p : Poly) (c_ne : c ≠ 0) : (p.scale c).terms = p.terms.map fun t => (t.1, t.2 * c) := by
  apply terms_eq
  · exact List.pairwise_map.mpr p.ascending
  · exact List.forall_mem_map.mpr fun t member => mul_ne_zero (p.nonzero t member) c_ne
  · rw [toPolynomial_scale]
    exact (sumOfTerms_map_mul p.terms (0, c)).symm.trans (by simp [mul_comm])

theorem amounts_scale (name : String) (p : Poly) (c_ne : c ≠ 0) :
    (p.scale c).amounts name = (p.amounts name).map fun entry => (entry.1, c * entry.2) := by
  rw [amounts, terms_scale p c_ne, amounts, List.map_map, List.map_map]
  simp [Function.comp_def, mul_comm c]

theorem const_times_simplified (name : String) (p : Poly) (c_ne : c ≠ 0) :
    (Expr.const c).times (p.simplified name) = (p.scale c).simplified name := by
  rw [simplified, const_times_collected (keyed_amounts name p) fun entry member =>
    (settled_amounts name p entry member).toIndependent, ← amounts_scale name p c_ne]
  rfl

theorem simplified_times_const (name : String) (p : Poly) (c_ne : c ≠ 0) :
    (p.simplified name).times (.const c) = (p.scale c).simplified name := by
  rw [simplified, collected_times_const (keyed_amounts name p) fun entry member =>
    (settled_amounts name p entry member).toIndependent, ← amounts_scale name p c_ne]
  rfl

/-- The weight of amounts under keys of the degrees is a sum over the coefficients. -/
theorem weighted_terms (w : List Expr → ℚ) (key : ℕ → List Expr) (terms : List (ℕ × ℚ)) :
    weighted w (terms.map fun t => (key t.1, t.2)) = (sumOfTerms terms).sum fun d c => c * w (key d) := by
  have additive (p q : Polynomial ℚ) := Polynomial.sum_add_index p q (fun d c => c * w (key d))
    (fun _ => zero_mul _) (fun _ _ _ => add_mul _ _ _)
  induction terms with
  | nil => exact (Polynomial.sum_zero_index _).symm
  | cons t rest ih =>
      have single := Polynomial.sum_monomial_index t.2 (fun d c => c * w (key d)) (zero_mul (w (key t.1)))
      rw [List.map_cons, weighted_cons, ih, sumOfTerms_cons, additive, single, Rat.cast_id]

theorem weighted_amounts_eq (w : List Expr → ℚ) (p : Poly) :
    weighted w (p.amounts name) = p.toPolynomial.sum fun d c => c * w (powers (.var name) d) :=
  weighted_terms w (fun d => powers (.var name) d) p.terms

/-- The expressions of two polynomials add up to the expression of the sum. -/
theorem simplified_plus (name : String) (p q : Poly) :
    (p.simplified name).plus (q.simplified name) = (p.add q).simplified name := by
  have left := (keyed_amounts name p).terms
  have right := (keyed_amounts name q).terms
  rw [simplified, simplified, collected_plus left right, simplified]
  apply collected_congr (left.append right) (keyed_amounts name _).terms
  intro w
  have additive := Polynomial.sum_add_index p.toPolynomial q.toPolynomial
    (fun d c => c * w (powers (.var name) d)) (fun _ => zero_mul _) (fun _ _ _ => add_mul _ _ _)
  rw [weighted_append, weighted_amounts_eq, weighted_amounts_eq, weighted_amounts_eq, toPolynomial_add,
    additive]

theorem isSum_simplified_monomial (name : String) (small : d < exponentBound) (c : Rat) :
    ((monomial d c).simplified name).isSum = false := by
  rw [simplified_monomial name small]
  exact (isKey_powers name d).isSum_multiple c

/-- A multiple of a sum of powers is written as a sum too. -/
theorem isSum_simplified_scale (c_ne : c ≠ 0) (sum : (p.simplified name).isSum = true) :
    ((p.scale c).simplified name).isSum = true := by
  rcases simplified_cases name (p.scale c) with vanishes | ⟨d, k, small, -, single⟩ | sum
  · have p_eq : p = zero := by
      apply toPolynomial_injective
      have product := congrArg toPolynomial vanishes
      rw [toPolynomial_scale, toPolynomial_zero, mul_eq_zero] at product
      exact product.resolve_left (Polynomial.C_ne_zero.mpr c_ne)
    rw [p_eq] at sum
    cases sum
  · have p_eq : p = monomial d (k / c) := by
      apply scale_injective c_ne
      rw [single]
      apply toPolynomial_injective
      rw [toPolynomial_scale, toPolynomial_monomial small, toPolynomial_monomial small,
        Polynomial.C_mul_monomial, mul_div_cancel₀ k c_ne]
    rw [p_eq, isSum_simplified_monomial name small] at sum
    cases sum
  · exact sum

/-- A polynomial that divides one power of the symbol is a multiple of one power. -/
theorem isSum_simplified_mul (sum : (p.simplified name).isSum = true) (q_ne : q.isZero = false)
    (small : p.degree + q.degree < exponentBound) : ((p.mul q).simplified name).isSum = true := by
  have p_ne : p.isZero = false := by
    by_contra vanishes
    obtain rfl : p = zero := eq_zero_of_isZero (by simpa using vanishes)
    cases sum
  rcases simplified_cases name (p.mul q) with vanishes | ⟨d, c, d_small, c_ne, single⟩ | sum
  · have product_ne := isZero_mul p_ne q_ne small
    rw [vanishes] at product_ne
    cases product_ne
  · have product := congrArg toPolynomial single
    rw [toPolynomial_mul small, toPolynomial_monomial d_small, ← Polynomial.C_mul_X_pow_eq_monomial] at product
    have unit : IsUnit (Polynomial.C c) := Polynomial.isUnit_C.mpr (isUnit_iff_ne_zero.mpr c_ne)
    have divides : p.toPolynomial ∣ Polynomial.X ^ d :=
      (unit.dvd_mul_left).mp (product ▸ dvd_mul_right _ _)
    obtain ⟨i, le, power⟩ := (dvd_prime_pow Polynomial.prime_X d).mp divides
    obtain ⟨u, same⟩ := power.symm
    obtain ⟨r, -, constant⟩ := Polynomial.isUnit_iff.mp u.isUnit
    have i_small := le.trans_lt d_small
    have p_eq : p = monomial i r := by
      apply toPolynomial_injective
      rw [← same, ← constant, toPolynomial_monomial i_small, Polynomial.X_pow_mul_C,
        Polynomial.C_mul_X_pow_eq_monomial]
    rw [p_eq, isSum_simplified_monomial name i_small] at sum
    cases sum
  · exact sum

theorem degree_ne_zero_of_isSum (sum : (p.simplified name).isSum = true) : p.degree ≠ 0 := by
  intro vanishes
  rw [degree_eq] at vanishes
  have p_eq : p = const (p.toPolynomial.coeff 0) := by
    apply toPolynomial_injective
    rw [toPolynomial_const]
    exact Polynomial.eq_C_of_natDegree_eq_zero vanishes
  rw [p_eq, simplified_const] at sum
  cases sum

theorem evaluate_simplified (name : String) (p : Poly) : (p.simplified name).evaluate = p.simplified name := by
  apply evaluate_sumOf (sumOf_simplified name p)
  rintro l ⟨d, -, rfl⟩
  exact ⟨isKey_powers name d, settled_powers name d⟩

/-- A sum of powers may be a base itself. -/
theorem settled_sum (sum : (p.simplified name).isSum = true) {l : List Expr} (h : Settled l)
    (new : p.simplified name ∉ l.map fun f => f.asPower.1) (k : Rat) :
    Settled (powers (p.simplified name) k ++ l) := by
  have plain : (p.simplified name).isTrigonometric = false := by
    generalize p.simplified name = e at sum
    cases e <;> first | rfl | cases sum
  exact h.powers (isBase_of_isSum sum) plain (evaluate_simplified name p) new k

end SymbolicAlgebra.Poly
