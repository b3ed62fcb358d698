import SymbolicAlgebra.Proofs.Polynomial.Reading

/-! Nested sums of monomials in one symbol. One evaluation collects all like terms: what it
leaves is the sum that is written for the polynomial, up to a sign in front of it that a
further sum takes away. -/

namespace SymbolicAlgebra.Poly
open SymbolicAlgebra.Expr Tally

variable {name : String} {p q : Poly} {a b e : Expr}

/-- Products of constants and powers of the symbol, however they are bracketed. -/
inductive IsMonomial (name : String) : Expr → Prop where
  | const (c : Rat) : IsMonomial name (.const c)
  | symbol : IsMonomial name (.var name)
  | power (k : ℕ) : IsMonomial name (.pow (.var name) (.const k))
  | mul {a b : Expr} (left : IsMonomial name a) (right : IsMonomial name b) :
      IsMonomial name (.mul a b)

/-- Sums, differences and opposites of monomials, however they are nested. -/
inductive IsMonomialSum (name : String) : Expr → Prop where
  | monomial {a : Expr} (h : IsMonomial name a) : IsMonomialSum name a
  | add {a b : Expr} (left : IsMonomialSum name a) (right : IsMonomialSum name b) :
      IsMonomialSum name (.add a b)
  | sub {a b : Expr} (left : IsMonomialSum name a) (right : IsMonomialSum name b) :
      IsMonomialSum name (.sub a b)
  | neg {a : Expr} (inner : IsMonomialSum name a) : IsMonomialSum name (.neg a)

/-- A product adds the exponents and multiplies the coefficients. -/
theorem IsMonomial.evaluate_eq (h : IsMonomial name e) (read : ofExpr? name e = some p) :
    ∃ d c, d ≤ degreeLimit ∧ p = Poly.monomial d c ∧ e.evaluate = multiple c (powers (.var name) d) := by
  induction h generalizing p with
  | const c =>
      obtain rfl := Option.some.inj ((ofExpr?_const name c).symm.trans read)
      refine ⟨0, c, Nat.zero_le _, rfl, ?_⟩
      rw [Nat.cast_zero, powers_zero, multiple_nil]
      rfl
  | symbol =>
      obtain rfl := Option.some.inj ((ofExpr?_var name).symm.trans read)
      refine ⟨1, 1, by decide, rfl, ?_⟩
      rw [Nat.cast_one, powers_one, multiple_one_singleton rfl]
      rfl
  | power k =>
      obtain ⟨-, ⟨q, n, base, exponent, small, within, rfl⟩, -⟩ := ofExpr?_pow_eq_some.mp read
      obtain rfl := Option.some.inj ((ofExpr?_var name).symm.trans base)
      obtain rfl : k = n := Nat.cast_injective (Option.some.inj exponent)
      have le := within
      rw [degree_monomial (by decide) one_ne_zero, Nat.one_mul] at le
      refine ⟨k, 1, le, ?_, ?_⟩
      · apply toPolynomial_injective
        rw [toPolynomial_pow_of_le within, toPolynomial_symbol, toPolynomial_monomial small,
          Polynomial.monomial_pow, one_mul, one_pow]
      · have number : (Expr.const (k : Rat)).evaluate = .const k := rfl
        have symbol : (Expr.var name).evaluate = .var name := rfl
        rw [evaluate, symbol, number, raise_of_isBase rfl, multiple_one (isKey_powers name k).toIsMonic,
          powers]
        split
        · rfl
        · split
          · exact (sortedProduct_singleton rfl).symm
          · exact (sortedProduct_singleton rfl).symm
  | @mul a b _ _ iha ihb =>
      obtain ⟨-, ⟨q, r, left, right, rfl⟩, -⟩ := ofExpr?_mul_eq_some.mp read
      have within := degree_le_of_ofExpr? read
      have exact := toPolynomial_mul_of_ofExpr? left right
      obtain ⟨d, c, d_le, rfl, first⟩ := iha left
      obtain ⟨n, k, n_le, rfl, second⟩ := ihb right
      have limit := degreeLimit_lt
      have small : d + n < exponentBound := (Nat.add_le_add d_le n_le).trans_lt (by decide)
      have joined : (Poly.monomial d c).mul (Poly.monomial n k) = Poly.monomial (d + n) (c * k) := by
        apply toPolynomial_injective
        rw [exact, toPolynomial_monomial (by omega), toPolynomial_monomial (by omega),
          toPolynomial_monomial small, Polynomial.monomial_mul_monomial]
      have plainly := MultipliesPlainly.of_keys (isKey_powers name d) (isKey_powers name n) c k
      have product := times_powers (b := .var name) (l := []) (m := []) (q := c) (r := k) (i := d) (j := n)
        rfl ⟨List.forall_mem_nil _, List.nodup_nil⟩ List.not_mem_nil (by simpa using plainly)
      simp only [List.append_nil, ← Nat.cast_add] at product
      rw [evaluate, first, second, product, joined]
      by_cases vanishes : c * k = 0
      · -- the degree of a vanishing product is not bounded by the limit
        exact ⟨0, 0, Nat.zero_le _, by rw [vanishes]; rfl, by rw [vanishes]; rfl⟩
      · rw [joined, degree_monomial small vanishes] at within
        exact ⟨d + n, c * k, within, rfl, rfl⟩

/-- What evaluation leaves of a sum that is read as a polynomial: the expression written
for it, or the opposite of the sum that is written for its opposite. -/
inductive Collects (name : String) : Expr → Poly → Prop where
  | written (p : Poly) : Collects name (p.simplified name) p
  | opposite {p : Poly} (sum : (p.simplified name).isSum = true) :
      Collects name (.neg (p.simplified name)) p.neg

theorem neg_involutive : Function.Involutive neg := by
  intro p
  apply toPolynomial_injective
  rw [toPolynomial_neg, toPolynomial_neg, neg_neg]

theorem negate_simplified (name : String) (p : Poly) :
    Collects name (p.simplified name).negate p.neg := by
  rcases simplified_cases name p with rfl | ⟨d, c, small, c_ne, rfl⟩ | sum
  · exact .written zero
  · rw [neg_monomial, simplified_monomial name small, negate_multiple (isKey_powers name d).toIsMonic,
      ← simplified_monomial name small]
    exact .written _
  · rw [negate_of_isFactor (isFactor_of_isBase (isBase_of_isSum sum))]
    exact .opposite sum

namespace Collects

theorem negate (h : Collects name e p) : Collects name e.negate p.neg := by
  cases h with
  | written => exact negate_simplified name p
  | opposite sum =>
      rw [neg_involutive]
      exact .written _

theorem amounts (h : Collects name e p) : Terms e.amounts ∧ SameAmounts e.amounts (p.amounts name) := by
  cases h with
  | written => exact collected_amounts (keyed_amounts name p).terms
  | @opposite p sum =>
      obtain ⟨terms, same⟩ := neg_collected_amounts (keyed_amounts name p).terms
      refine ⟨terms, fun w => (same w).trans ?_⟩
      rw [Poly.neg, amounts_scale name p (neg_ne_zero.mpr one_ne_zero)]
      simp [LikeTerms.opposite]

/-- The sum of what two operands leave is the one that is written for the sum. -/
theorem plus (h : Collects name a p) (k : Collects name b q) :
    a.plus b = (p.add q).simplified name := by
  obtain ⟨left, sameLeft⟩ := h.amounts
  obtain ⟨right, sameRight⟩ := k.amounts
  have keyed (p : Poly) : Terms (p.amounts name) := (keyed_amounts name p).terms
  rw [← simplified_plus, simplified, simplified, collected_plus (keyed p) (keyed q), plus_eq]
  apply collected_congr (left.append right) ((keyed p).append (keyed q))
  intro w
  rw [weighted_append, weighted_append, sameLeft, sameRight]

theorem minus (h : Collects name a p) (k : Collects name b q) :
    a.minus b = (p.sub q).simplified name := h.plus k.negate

end Collects

theorem IsMonomialSum.evaluate_collects (h : IsMonomialSum name e) (read : ofExpr? name e = some p) :
    Collects name e.evaluate p := by
  induction h generalizing p with
  | monomial h =>
      obtain ⟨d, c, within, rfl, evaluated⟩ := h.evaluate_eq read
      rw [evaluated, ← simplified_monomial name (within.trans_lt degreeLimit_lt)]
      exact .written _
  | add _ _ iha ihb =>
      obtain ⟨-, ⟨q, r, left, right, rfl⟩, -⟩ := ofExpr?_add_eq_some.mp read
      rw [evaluate, (iha left).plus (ihb right)]
      exact .written _
  | sub _ _ iha ihb =>
      obtain ⟨-, ⟨q, r, left, right, rfl⟩, -⟩ := ofExpr?_sub_eq_some.mp read
      rw [evaluate, (iha left).minus (ihb right)]
      exact .written _
  | neg _ ih =>
      obtain ⟨q, inner, rfl⟩ := ofExpr?_neg_eq_some.mp read
      rw [evaluate]
      exact (ih inner).negate

/-- A sum or a difference is written as its polynomial is. -/
theorem IsMonomialSum.evaluate_eq_simplified (h : IsMonomialSum name e) (root : e.isSum = true)
    (read : ofExpr? name e = some p) : e.evaluate = p.simplified name := by
  cases h with
  | monomial h => cases h <;> cases root
  | add left right =>
      obtain ⟨-, ⟨q, r, readLeft, readRight, rfl⟩, -⟩ := ofExpr?_add_eq_some.mp read
      exact (left.evaluate_collects readLeft).plus (right.evaluate_collects readRight)
  | sub left right =>
      obtain ⟨-, ⟨q, r, readLeft, readRight, rfl⟩, -⟩ := ofExpr?_sub_eq_some.mp read
      exact (left.evaluate_collects readLeft).minus (right.evaluate_collects readRight)
  | neg => cases root

/-- One evaluation collects the like terms of a nested sum of monomials: it leaves what it
leaves of the terms of the polynomial, so the polynomial alone decides the result. -/
theorem evaluate_monomialSum (h : IsMonomialSum name e) (root : e.isSum = true)
    (read : ofExpr? name e = some p) :
    e.evaluate = (p.toExpr name).evaluate ∧
      ∀ f, IsMonomialSum name f → f.isSum = true → ofExpr? name f = some p →
        f.evaluate = e.evaluate := by
  have evaluated := h.evaluate_eq_simplified root read
  constructor
  · rw [evaluated, evaluate_toExpr]
  · intro f monomials sum same
    rw [evaluated, monomials.evaluate_eq_simplified sum same]

/-- Terms cancel through signs, and powers of the symbol are joined. -/
theorem evaluate_cancelling_sum :
    ∃ e f p,
      e = Expr.sub (.mul (.var "x") (.const 3))
        (.neg (.sub (.pow (.var "x") (.const 2)) (.add (.const 2) (.mul (.const 3) (.var "x"))))) ∧
      f = Expr.sub (.mul (.var "x") (.pow (.var "x") (.const 1))) (.neg (.neg (.const 2))) ∧
      p = (monomial 0 (-2)).add (monomial 2 1) ∧
      ofExpr? "x" e = some p ∧ ofExpr? "x" f = some p ∧
      e.evaluate = (p.toExpr "x").evaluate ∧ f.evaluate = e.evaluate := by
  refine ⟨_, _, _, rfl, rfl, rfl, ?_⟩
  have power (k : ℕ) : IsMonomialSum "x" (.pow (.var "x") (.const k)) := .monomial (.power k)
  have x : IsMonomial "x" (.var "x") := .symbol
  have number (c : Rat) : IsMonomial "x" (.const c) := .const c
  have read : ofExpr? "x" (.sub (.mul (.var "x") (.const 3))
      (.neg (.sub (.pow (.var "x") (.const 2)) (.add (.const 2) (.mul (.const 3) (.var "x")))))) =
        some ((monomial 0 (-2)).add (monomial 2 1)) := by
    decide +kernel
  have read' : ofExpr? "x" (.sub (.mul (.var "x") (.pow (.var "x") (.const 1)))
      (.neg (.neg (.const 2)))) = some ((monomial 0 (-2)).add (monomial 2 1)) := by
    decide +kernel
  have collected := evaluate_monomialSum (.sub (.monomial (x.mul (number 3)))
    (.neg (.sub (power 2) (.add (.monomial (number 2)) (.monomial ((number 3).mul x)))))) rfl read
  refine ⟨read, read', collected.1, collected.2 _ ?_ rfl read'⟩
  exact .sub (.monomial (x.mul (.power 1))) (.neg (.neg (.monomial (number 2))))

end SymbolicAlgebra.Poly
