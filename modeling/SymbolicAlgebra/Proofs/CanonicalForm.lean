import SymbolicAlgebra.CanonicalForm
import SymbolicAlgebra.Proofs.Polynomial.Expansion

/-! The canonical form of a product of a power of the symbol, of sums and of other factors.
It is the product, unless the sum that it multiplies out to is smaller; under a minus
sign the sum is no sum any more. -/

namespace SymbolicAlgebra.Expr
open Polynomial
open SymbolicAlgebra.Poly (simplified withCofactor termsOf)

variable {name : String} {e f g : Expr} {l K : List Expr} {P : List Poly} {p : Poly} {r : ℚ[X]} {c : Rat}
  {d i : ℕ}

theorem canonicalize_of_normalize (normal : e.normalize = f) (fixed : f.pass = f) (expanded : f.expand = g)
    (fixed' : g.pass = g) (passes : ℕ) :
    e.canonicalize passes = if g.size < f.size then g else f := by
  rw [canonicalize, normal, simplifyWithin_of_pass fixed, expanded, simplifyWithin_of_pass fixed']

/-- What a power of the symbol adds to a product. -/
def symbolSize (d : ℕ) : ℕ := if d = 0 then 0 else if d = 1 then 2 else 4

theorem two_le_symbolSize (d : ℕ) : 2 ≤ symbolSize (d + 1) := by
  rw [symbolSize, if_neg (Nat.succ_ne_zero d)]
  split <;> decide

theorem totalSize_powers (name : String) (d : ℕ) : totalSize (powers (var name) d) = symbolSize d := by
  by_cases d_ne : d = 0
  · rw [d_ne, Nat.cast_zero, powers_zero]
    rfl
  · rw [Poly.powers_eq name d_ne, totalSize_cons, totalSize_nil, Poly.powerExpr, symbolSize, if_neg d_ne]
    split <;> rfl

section Cofactor
variable (h : IsCofactor name K)
include h

theorem size_term (some_factor : K ≠ []) (d : ℕ) (c_ne : c ≠ 0) :
    (multiple c (cofactorKey name K d)).size + 1 = coefficientSize c + symbolSize d + totalSize K := by
  have proper : cofactorKey name K d ≠ [] := sort_ne_nil (by simp [some_factor])
  rw [size_multiple (h.settled_key d).factor c_ne proper, cofactorKey,
    totalSize_perm (Sorting.sort_perm le _), totalSize_append, totalSize_powers, Nat.add_assoc]

theorem size_withCofactor (some_factor : K ≠ []) (r_ne : r ≠ 0) : (withCofactor name K r).size + 1 =
    ((termsOf r).map fun t => coefficientSize t.2 + symbolSize t.1 + totalSize K).sum := by
  rw [withCofactor, size_collected (Poly.keyed_withCofactor h r) (Poly.distinct_withCofactor name K r)
    (Poly.nonzero_withCofactor name K r)
    (Poly.amountsOver_ne_nil name K r_ne), totalSize, Poly.amountsOver, List.map_map, List.map_map]
  congr 1
  apply List.map_congr_left
  intro t member
  exact size_term h some_factor t.1 (Poly.termsOf_nonzero r t member)

theorem isSum_withCofactor : (withCofactor name K r).isSum = true ↔ 2 ≤ (termsOf r).length := by
  constructor
  · intro sum
    by_contra short
    rcases listed : termsOf r with _ | ⟨t, _ | ⟨s, rest⟩⟩
    · rw [withCofactor, Poly.amountsOver, listed] at sum
      cases sum
    · rw [withCofactor, Poly.amountsOver, listed, List.map_singleton, ← (h.isKey t.1).multiple_eq,
        (h.isKey t.1).isSum_multiple] at sum
      cases sum
    · rw [listed] at short
      exact short (by simp)
  · intro two
    obtain ⟨a, b, shape⟩ := exists_add_collected (Poly.keyed_withCofactor h r) (Poly.distinct_withCofactor name K r)
      (Poly.nonzero_withCofactor name K r) (by rwa [Poly.amountsOver, List.length_map])
    rw [withCofactor, shape]
    rfl

/-- The opposite of what is multiplied out is no sum, and simplification keeps it. -/
theorem negate_withCofactor (r : ℚ[X]) : (withCofactor name K r).negate.isSum = false ∧
    (withCofactor name K r).negate.pass = (withCofactor name K r).negate := by
  have written := sumOf_collected (Poly.keyed_withCofactor h r).terms
  have keys (l : List Expr) (listed : ∃ q, (l, q) ∈ Poly.amountsOver name K r) : IsKey l ∧ Settled l := by
    obtain ⟨q, member⟩ := listed
    obtain ⟨t, -, same⟩ := List.mem_map.mp member
    obtain ⟨rfl, -⟩ := Prod.mk.inj same
    exact ⟨h.isKey t.1, h.settled_key t.1⟩
  change SumOf _ (withCofactor name K r) at written
  generalize withCofactor name K r = e at written
  cases written with
  | zero => exact ⟨rfl, rfl⟩
  | multiple proper _ =>
      obtain ⟨key, settled⟩ := keys _ proper
      rw [negate_multiple key.toIsMonic]
      exact ⟨key.isSum_multiple _, pass_multiple settled (key.sorted.symm ▸ key) _⟩
  | add initial proper q_ne last => exact ⟨rfl, pass_neg_sumOf (.add initial proper q_ne last) keys rfl⟩

end Cofactor

/-- A product of a power of the symbol, of sums and of other factors. -/
def factored (name : String) (i : ℕ) (K : List Expr) (P : List Poly) : List Expr :=
  powers (var name) i ++ K ++ P.map (simplified name)

section Factored
variable (h : IsCofactor name K) (some_factor : K ≠ []) (settled : Settled (factored name i K P))
include h some_factor settled

theorem isKey_factored : IsKey (Sorting.sort le (factored name i K P)) := by
  obtain ⟨f, member⟩ := List.exists_mem_of_ne_nil K some_factor
  apply isKey_sort_of_mem settled.factor _ (h.noSum f member)
  exact List.mem_append_left _ (List.mem_append_right _ member)

theorem isSum_factored (c : Rat) : (multiple c (factored name i K P)).isSum = false := by
  rw [← multiple_perm (Sorting.sort_perm le _)]
  exact (isKey_factored h some_factor settled).isSum_multiple c

omit h in
theorem size_factored (c_ne : c ≠ 0) : (multiple c (factored name i K P)).size + 1 =
    coefficientSize c + symbolSize i + totalSize K + totalSize (P.map (simplified name)) := by
  rw [size_multiple settled.factor c_ne (by simp [factored, some_factor]), factored, totalSize_append,
    totalSize_append, totalSize_powers]
  omega

/-- The canonical form is a sum only without a minus sign, if the sum is the smaller form. -/
theorem isSum_canonicalize (sums : ∀ p ∈ P, (p.simplified name).isSum = true)
    (few : (P.map fun p => p.terms.length).prod ≤ expansionLimit)
    (total : r = X ^ i * (P.map Poly.toPolynomial).prod)
    (short : (termsOf r).length ≤ expansionLimit) (c_ne : c ≠ 0)
    (normal : e.normalize = multiple c (factored name i K P)) (passes : ℕ) :
    (e.canonicalize passes).isSum = true ↔ c ≠ -1 ∧ 2 ≤ (termsOf (C c * r)).length ∧
      (withCofactor name K (C c * r)).size < (multiple c (factored name i K P)).size := by
  have fixed := pass_multiple settled (isKey_factored h some_factor settled) c
  have notSum := isSum_factored h some_factor settled c
  have expanded := expand_factored h some_factor sums few total short c_ne
  split at expanded
  next opposite =>
    obtain ⟨negated, fixed'⟩ := negate_withCofactor h r
    rw [canonicalize_of_normalize normal fixed expanded fixed']
    split
    · exact iff_of_false (by simp [negated]) fun sum => sum.1 opposite
    · exact iff_of_false (by simp [notSum]) fun sum => sum.1 opposite
  next opposite_ne =>
    rw [canonicalize_of_normalize normal fixed expanded (Poly.pass_withCofactor h _), ← isSum_withCofactor h]
    split
    next smaller => simp [opposite_ne, smaller]
    next larger => simp [notSum, larger]

end Factored

/-- The polynomial `a + b x`. -/
def linear (a b : Rat) : Poly := (Poly.const a).add (.monomial 1 b)

section Linear
variable {a b : Rat}

theorem toPolynomial_linear (a b : Rat) :
    (linear a b).toPolynomial = Polynomial.monomial 0 a + Polynomial.monomial 1 b := by
  rw [linear, Poly.toPolynomial_add, Poly.toPolynomial_const, Poly.toPolynomial_symbol, monomial_zero_left]

theorem scale_linear (a b c : Rat) : (linear a b).scale c = linear (c * a) (c * b) := by
  apply Poly.toPolynomial_injective
  rw [Poly.toPolynomial_scale, toPolynomial_linear, toPolynomial_linear, mul_add, Polynomial.C_mul_monomial,
    Polynomial.C_mul_monomial]

variable (a_ne : a ≠ 0) (b_ne : b ≠ 0)
include a_ne b_ne

theorem terms_linear : (linear a b).terms = [(0, a), (1, b)] := by
  apply Poly.terms_eq
  · simp
  · simp [a_ne, b_ne]
  · rw [toPolynomial_linear]
    simp

theorem amounts_linear (name : String) : (linear a b).amounts name = [([], a), ([var name], b)] := by
  rw [Poly.amounts, terms_linear a_ne b_ne]
  simp [powers]

theorem isSum_linear (name : String) : ((linear a b).simplified name).isSum = true := by
  have keys := Poly.keyed_amounts name (linear a b)
  have amounts := amounts_linear a_ne b_ne name
  obtain ⟨u, v, shape⟩ := exists_add_collected keys (by simp [amounts]) (by simp [amounts, a_ne, b_ne])
    (by simp [amounts])
  rw [simplified, shape]
  rfl

theorem totalSize_linear (name : String) :
    totalSize [(linear a b).simplified name] = coefficientSize b + 4 := by
  have keys := Poly.keyed_amounts name (linear a b)
  have amounts := amounts_linear a_ne b_ne name
  have size := size_collected keys (by simp [amounts]) (by simp [amounts, a_ne, b_ne]) (by simp [amounts])
  have term := size_multiple (l := [var name]) (List.forall_mem_singleton.mpr rfl) b_ne (by simp)
  rw [amounts] at size
  simp only [List.map_cons, List.map_nil, totalSize_cons, totalSize_nil, multiple_nil, Expr.size] at size term
  rw [totalSize_cons, totalSize_nil, simplified, amounts]
  omega

theorem termsOf_power_mul_linear (c_ne : c ≠ 0) (i : ℕ) :
    termsOf (C c * (X ^ i * (linear a b).toPolynomial)) = [(i, c * a), (i + 1, c * b)] := by
  apply Poly.termsOf_eq
  · simp
  · simp [a_ne, b_ne, c_ne]
  · rw [toPolynomial_linear, ← mul_assoc, C_mul_X_pow_eq_monomial, mul_add, monomial_mul_monomial,
      monomial_mul_monomial]
    simp

end Linear

/-- Products that stay products: they have no sum as a factor, or one sum, and a unit as
the coefficient of the product or of the symbol in the sum. -/
inductive StaysFactored (name : String) : Expr → Prop where
  | plain {i : ℕ} {K : List Expr} {c : Rat} (h : IsCofactor name K) (some_factor : K ≠ [])
      (settled : Settled (factored name i K [])) (c_ne : c ≠ 0) :
      StaysFactored name (multiple c (factored name i K []))
  | sum {i : ℕ} {K : List Expr} {a b c : Rat} (h : IsCofactor name K) (large : 3 ≤ totalSize K)
      (settled : Settled (factored name i K [linear a b])) (a_ne : a ≠ 0) (b_ne : b ≠ 0) (c_ne : c ≠ 0)
      (unit : (c = 1 ∨ c = -1) ∨ b = 1 ∨ b = -1) :
      StaysFactored name (multiple c (factored name i K [linear a b]))

namespace StaysFactored

theorem negate (h : StaysFactored name e) : StaysFactored name e.negate := by
  cases h with
  | plain h some_factor settled c_ne =>
      rw [negate_multiple (isMonic settled.factor)]
      exact .plain h some_factor settled (neg_ne_zero.mpr c_ne)
  | @sum i K a b c h large settled a_ne b_ne c_ne unit =>
      have unit : (-c = 1 ∨ -c = -1) ∨ b = 1 ∨ b = -1 := by
        rw [neg_inj, neg_eq_iff_eq_neg]
        exact unit.imp_left Or.symm
      rw [negate_multiple (isMonic settled.factor)]
      exact .sum h large settled a_ne b_ne (neg_ne_zero.mpr c_ne) unit

theorem size_le {a b : Rat} {k : ℕ} (large : 3 ≤ k) (opposite_ne : c ≠ -1)
    (unit : (c = 1 ∨ c = -1) ∨ b = 1 ∨ b = -1) : coefficientSize c + (coefficientSize b + 4) ≤
      coefficientSize (c * a) + coefficientSize (c * b) + symbolSize (i + 1) + k := by
  have symbol := two_le_symbolSize i
  by_cases one : c = 1
  · have none : coefficientSize 1 = 0 := rfl
    rw [one, one_mul, one_mul, none]
    omega
  · replace unit := unit.resolve_left (not_or.mpr ⟨one, opposite_ne⟩)
    have product : coefficientSize (c * b) = 2 := by
      apply coefficientSize_eq_two <;> rcases unit with rfl | rfl
      · rwa [mul_one]
      · rwa [mul_neg_one, ne_eq, neg_eq_iff_eq_neg]
      · rwa [mul_one]
      · rwa [mul_neg_one, ne_eq, neg_inj]
    have sign : coefficientSize b ≤ 1 := by
      rcases unit with rfl | rfl <;> decide
    have := coefficientSize_le c
    omega

theorem isSum_canonicalize (h : StaysFactored name e.normalize) (passes : ℕ) :
    (e.canonicalize passes).isSum = false := by
  rw [← Bool.not_eq_true]
  generalize normal : e.normalize = f at h
  cases h with
  | @plain i K c h some_factor settled c_ne =>
      have single : termsOf (C c * X ^ i) = [(i, c)] := by
        rw [C_mul_X_pow_eq_monomial, Poly.termsOf_monomial i c_ne]
      rw [Expr.isSum_canonicalize (r := X ^ i) h some_factor settled (List.forall_mem_nil _)
        (by decide) (by simp) (by simp [Poly.termsOf_X_pow, expansionLimit]) c_ne normal, single]
      rintro ⟨-, two, -⟩
      simp at two
  | @sum i K a b c h large settled a_ne b_ne c_ne unit =>
      have some_factor : K ≠ [] := by
        rintro rfl
        exact absurd large (by decide)
      have terms := termsOf_power_mul_linear a_ne b_ne c_ne i
      have terms_one := termsOf_power_mul_linear a_ne b_ne one_ne_zero i
      rw [C_1, one_mul] at terms_one
      rw [Expr.isSum_canonicalize (r := X ^ i * (linear a b).toPolynomial) h some_factor settled
        (List.forall_mem_singleton.mpr (isSum_linear a_ne b_ne name))
        (by simp [terms_linear a_ne b_ne, expansionLimit]) (by simp)
        (by simp [terms_one, expansionLimit]) c_ne normal]
      rintro ⟨opposite_ne, -, smaller⟩
      have product_ne : C c * (X ^ i * (linear a b).toPolynomial) ≠ 0 :=
        Poly.ne_zero_of_termsOf (terms ▸ List.cons_ne_nil _ _)
      have expanded := size_withCofactor h some_factor product_ne
      have product := size_factored some_factor settled c_ne
      have le := size_le (i := i) (a := a) large opposite_ne unit
      rw [terms] at expanded
      simp only [List.map_cons, List.map_nil, List.sum_cons, List.sum_nil] at expanded
      rw [List.map_singleton, totalSize_linear a_ne b_ne] at product
      omega

end StaysFactored

end SymbolicAlgebra.Expr
