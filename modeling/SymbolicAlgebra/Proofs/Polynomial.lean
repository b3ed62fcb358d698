import Mathlib.Algebra.Polynomial.AlgebraMap
import Mathlib.Algebra.Polynomial.Degree.Lemmas
import Mathlib.Tactic.Ring
import SymbolicAlgebra.Polynomial

/-! The operations are those of the ring of polynomials, as long as no degree is too large
for a machine word. Each one adds terms to a polynomial, so one law about adding a list
of terms gives the others. -/

namespace SymbolicAlgebra.Poly
open Polynomial

/-- The sum of a list of terms. -/
noncomputable def sumOfTerms (terms : List (ℕ × ℚ)) : ℚ[X] :=
  (terms.map fun t => Polynomial.monomial t.1 t.2).sum

noncomputable def toPolynomial (p : Poly) : ℚ[X] := sumOfTerms p.terms

@[simp] theorem sumOfTerms_nil : sumOfTerms [] = 0 := rfl

@[simp] theorem sumOfTerms_cons (t : ℕ × ℚ) (terms : List (ℕ × ℚ)) :
    sumOfTerms (t :: terms) = Polynomial.monomial t.1 t.2 + sumOfTerms terms := rfl

theorem sumOfTerms_append (l m : List (ℕ × ℚ)) : sumOfTerms (l ++ m) = sumOfTerms l + sumOfTerms m := by
  rw [sumOfTerms, List.map_append, List.sum_append]
  rfl

theorem coeff_sumOfTerms {terms : List (ℕ × ℚ)}
    (ascending : terms.Pairwise fun s t => s.1 < t.1) (n : ℕ) :
    (sumOfTerms terms).coeff n = coeffIn n terms := by
  induction terms with
  | nil => rfl
  | cons head rest ih =>
      obtain ⟨least, sorted⟩ := List.pairwise_cons.mp ascending
      rw [sumOfTerms_cons, coeff_add, ih sorted, coeff_monomial, coeffIn]
      split
      next same =>
        subst same
        rw [coeffIn_eq_zero least, add_zero]
      next => rw [zero_add]

@[simp] theorem coeff_toPolynomial (p : Poly) (n : ℕ) : p.toPolynomial.coeff n = p.coeff n :=
  coeff_sumOfTerms p.ascending n

@[simp] theorem toPolynomial_zero : zero.toPolynomial = 0 := rfl

/-- The term with its degree as a machine word. -/
def wrapTerm (t : ℕ × ℚ) : ℕ × ℚ := (wrap t.1, t.2)

theorem wrapTerm_eq {t : ℕ × ℚ} (small : t.1 < exponentBound) : wrapTerm t = t :=
  Prod.ext (wrap_eq small) rfl

theorem toPolynomial_addTerm (p : Poly) (t : ℕ × ℚ) :
    (p.addTerm t).toPolynomial = p.toPolynomial + Polynomial.monomial (wrap t.1) t.2 := by
  ext n
  rw [coeff_toPolynomial, coeff_addTerm, coeff_add, coeff_toPolynomial, coeff_monomial]

theorem toPolynomial_foldl (terms : List (ℕ × ℚ)) (f : ℕ × ℚ → ℕ × ℚ) (p : Poly) :
    (terms.foldl (fun sum t => sum.addTerm (f t)) p).toPolynomial =
      p.toPolynomial + sumOfTerms (terms.map fun t => wrapTerm (f t)) := by
  induction terms generalizing p with
  | nil => exact (add_zero _).symm
  | cons t rest ih =>
      rw [List.foldl_cons, ih, toPolynomial_addTerm, List.map_cons, sumOfTerms_cons, add_assoc]
      rfl

/-- Terms whose degrees fit are added as they are. -/
theorem toPolynomial_foldl_of_lt {terms : List (ℕ × ℚ)} {f : ℕ × ℚ → ℕ × ℚ}
    (small : ∀ t ∈ terms, (f t).1 < exponentBound) (p : Poly) :
    (terms.foldl (fun sum t => sum.addTerm (f t)) p).toPolynomial =
      p.toPolynomial + sumOfTerms (terms.map f) := by
  rw [toPolynomial_foldl, List.map_congr_left fun t member => wrapTerm_eq (small t member)]

theorem toPolynomial_monomial {n : ℕ} (small : n < exponentBound) (c : ℚ) :
    (monomial n c).toPolynomial = Polynomial.monomial n c := by
  rw [monomial, toPolynomial_addTerm, toPolynomial_zero, zero_add, wrap_eq small]

@[simp] theorem toPolynomial_const (c : ℚ) : (const c).toPolynomial = C c :=
  toPolynomial_monomial (by decide) c

@[simp] theorem toPolynomial_symbol (c : ℚ) : (monomial 1 c).toPolynomial = Polynomial.monomial 1 c :=
  toPolynomial_monomial (by decide) c

@[simp] theorem toPolynomial_one : one.toPolynomial = 1 := by
  rw [one, toPolynomial_const, map_one]

@[simp] theorem toPolynomial_add (p q : Poly) :
    (p.add q).toPolynomial = p.toPolynomial + q.toPolynomial := by
  simpa [add, toPolynomial] using toPolynomial_foldl_of_lt (f := id) q.bounded p

theorem sumOfTerms_map_mul (terms : List (ℕ × ℚ)) (s : ℕ × ℚ) :
    sumOfTerms (terms.map fun t => (s.1 + t.1, s.2 * t.2)) =
      Polynomial.monomial s.1 s.2 * sumOfTerms terms := by
  induction terms with
  | nil => exact (mul_zero _).symm
  | cons t rest ih =>
      rw [List.map_cons, sumOfTerms_cons, ih, sumOfTerms_cons, mul_add, monomial_mul_monomial]

@[simp] theorem toPolynomial_scale (p : Poly) (k : ℚ) :
    (p.scale k).toPolynomial = C k * p.toPolynomial := by
  have product := sumOfTerms_map_mul p.terms (0, k)
  rw [scale, toPolynomial_foldl_of_lt (f := fun t => (t.1, t.2 * k)) p.bounded, toPolynomial_zero, zero_add]
  simpa [mul_comm k, toPolynomial] using product

@[simp] theorem toPolynomial_neg (p : Poly) : p.neg.toPolynomial = -p.toPolynomial := by
  rw [neg, toPolynomial_scale, map_neg, map_one, neg_one_mul]

@[simp] theorem toPolynomial_sub (p q : Poly) :
    (p.sub q).toPolynomial = p.toPolynomial - q.toPolynomial := by
  rw [sub, toPolynomial_add, toPolynomial_neg, sub_eq_add_neg]

theorem degree_monomial_le (d : ℕ) (c : ℚ) : (monomial d c).degree ≤ d := by
  rw [monomial, addTerm]
  split
  · exact Nat.zero_le d
  · exact Nat.mod_le d _

theorem eq_zero_of_isZero {p : Poly} (h : p.isZero = true) : p = zero := by
  obtain ⟨terms, ascending, nonzero, bounded⟩ := p
  obtain rfl : terms = [] := List.isEmpty_iff.mp h
  rfl

theorem isZero_eq_false_iff {p : Poly} : p.isZero = false ↔ p ≠ zero := by
  rw [← Bool.not_eq_true, not_iff_not]
  exact ⟨eq_zero_of_isZero, fun vanishes => vanishes ▸ rfl⟩

theorem toPolynomial_ne_zero {p : Poly} (h : p.isZero = false) : p.toPolynomial ≠ 0 := by
  intro vanishes
  obtain ⟨terms, ascending, nonzero, bounded⟩ := p
  cases terms with
  | nil => cases h
  | cons t rest =>
      have first := coeff_toPolynomial ⟨t :: rest, ascending, nonzero, bounded⟩ t.1
      rw [vanishes, Polynomial.coeff_zero, coeff, coeffIn, if_pos rfl] at first
      exact nonzero t (.head _) first.symm

theorem leadingCoeff_ne_zero {p : Poly} (h : p.isZero = false) : p.leadingCoeff ≠ 0 := by
  have some_term : p.terms ≠ [] := by simpa [isZero] using h
  rw [leadingCoeff, List.getLast?_eq_some_getLast some_term]
  exact p.nonzero _ (List.getLast_mem some_term)

theorem degree?_eq_some {p : Poly} (h : p.isZero = false) : p.degree? = some p.degree := by
  have some_term : p.terms ≠ [] := by simpa [isZero] using h
  rw [degree, degree?, List.getLast?_eq_some_getLast some_term]
  rfl

@[simp] theorem leadingCoeff_zero : zero.leadingCoeff = 0 := rfl

theorem coeffIn_of_mem {terms : List (ℕ × ℚ)} (ascending : terms.Pairwise fun s t => s.1 < t.1)
    {t : ℕ × ℚ} (member : t ∈ terms) : coeffIn t.1 terms = t.2 := by
  induction terms with
  | nil => cases member
  | cons head rest ih =>
      obtain ⟨least, sorted⟩ := List.pairwise_cons.mp ascending
      rcases List.mem_cons.mp member with rfl | member
      · rw [coeffIn, if_pos rfl]
      · have := least t member
        rw [coeffIn, if_neg (by omega), ih sorted member]

theorem exists_mem_of_coeffIn {terms : List (ℕ × ℚ)} {n : ℕ} (h : coeffIn n terms ≠ 0) :
    (n, coeffIn n terms) ∈ terms := by
  induction terms with
  | nil => exact absurd rfl h
  | cons head rest ih =>
      rw [coeffIn] at h ⊢
      split at h
      next same =>
        rw [if_pos same, ← same]
        exact .head _
      next different =>
        rw [if_neg different]
        exact .tail _ (ih h)

/-- The terms are the degrees with their coefficients, where these are not zero. -/
theorem mem_iff_coeffIn {terms : List (ℕ × ℚ)} (ascending : terms.Pairwise fun s t => s.1 < t.1)
    (nonzero : ∀ t ∈ terms, t.2 ≠ 0) {t : ℕ × ℚ} : t ∈ terms ↔ coeffIn t.1 terms = t.2 ∧ t.2 ≠ 0 := by
  constructor
  · exact fun member => ⟨coeffIn_of_mem ascending member, nonzero t member⟩
  · rintro ⟨value, value_ne⟩
    have present := exists_mem_of_coeffIn (value.symm ▸ value_ne)
    rwa [value] at present

theorem mem_terms_iff {p : Poly} {t : ℕ × ℚ} : t ∈ p.terms ↔ p.coeff t.1 = t.2 ∧ t.2 ≠ 0 :=
  mem_iff_coeffIn p.ascending p.nonzero

/-- Ascending terms that are not zero are known by the coefficients. -/
theorem terms_unique {l m : List (ℕ × ℚ)} (ascending_l : l.Pairwise fun s t => s.1 < t.1)
    (ascending_m : m.Pairwise fun s t => s.1 < t.1) (nonzero_l : ∀ t ∈ l, t.2 ≠ 0)
    (nonzero_m : ∀ t ∈ m, t.2 ≠ 0) (same : ∀ n, coeffIn n l = coeffIn n m) : l = m := by
  have distinct {l : List (ℕ × ℚ)} (ascending : l.Pairwise fun s t => s.1 < t.1) : l.Nodup := by
    refine List.Pairwise.imp ?_ ascending
    rintro s t below rfl
    exact Nat.lt_irrefl _ below
  have perm : l.Perm m := by
    rw [List.perm_ext_iff_of_nodup (distinct ascending_l) (distinct ascending_m)]
    intro t
    rw [mem_iff_coeffIn ascending_l nonzero_l, mem_iff_coeffIn ascending_m nonzero_m, same]
  refine perm.eq_of_pairwise ?_ ascending_l ascending_m
  intro s t _ _ below above
  omega

/-- The coefficients decide. -/
theorem eq_of_coeff {p q : Poly} (same : ∀ n, p.coeff n = q.coeff n) : p = q := by
  have terms : p.terms = q.terms := terms_unique p.ascending q.ascending p.nonzero q.nonzero same
  obtain ⟨_, _, _, _⟩ := p
  obtain ⟨_, _, _, _⟩ := q
  cases terms
  rfl

theorem toPolynomial_injective {p q : Poly} (same : p.toPolynomial = q.toPolynomial) : p = q := by
  apply eq_of_coeff
  intro n
  rw [← coeff_toPolynomial, same, coeff_toPolynomial]

theorem toPolynomial_inj {p q : Poly} : p.toPolynomial = q.toPolynomial ↔ p = q :=
  ⟨toPolynomial_injective, congrArg toPolynomial⟩

/-- The terms are known by the polynomial. -/
theorem terms_eq {p : Poly} {terms : List (ℕ × ℚ)} (ascending : terms.Pairwise fun s t => s.1 < t.1)
    (nonzero : ∀ t ∈ terms, t.2 ≠ 0) (same : p.toPolynomial = sumOfTerms terms) : p.terms = terms := by
  apply terms_unique p.ascending ascending p.nonzero nonzero
  intro n
  rw [← coeff_sumOfTerms p.ascending, ← coeff_sumOfTerms ascending, ← same]
  rfl

theorem toPolynomial_eq_zero_iff (p : Poly) : p.toPolynomial = 0 ↔ p.isZero = true := by
  cases vanishes : p.isZero with
  | true => simp [eq_zero_of_isZero vanishes]
  | false => simp [toPolynomial_ne_zero vanishes]

/-- The last term has the degree and the leading coefficient. -/
theorem degree_and_leadingCoeff (p : Poly) : p.degree = p.toPolynomial.natDegree ∧
    p.leadingCoeff = p.toPolynomial.leadingCoeff := by
  cases last : p.terms.getLast? with
  | none =>
      have vanishes : p.isZero = true := by simpa [isZero] using last
      rw [eq_zero_of_isZero vanishes, toPolynomial_zero]
      exact ⟨rfl, rfl⟩
  | some t =>
      have degree_eq : p.degree = t.1 := by rw [degree, degree?, last]; rfl
      have lead_eq : p.leadingCoeff = t.2 := by rw [leadingCoeff, last]; rfl
      have member := List.mem_of_getLast? last
      have value : p.toPolynomial.coeff t.1 = t.2 := by
        rw [coeff_toPolynomial, coeff, coeffIn_of_mem p.ascending member]
      have above : p.toPolynomial.natDegree ≤ t.1 := by
        rw [Polynomial.natDegree_le_iff_coeff_eq_zero]
        intro n above
        by_contra present
        rw [coeff_toPolynomial] at present
        obtain ⟨before, split⟩ := List.getLast?_eq_some_iff.mp last
        have sorted := p.ascending
        have inside := exists_mem_of_coeffIn present
        rw [split] at sorted inside
        rcases List.mem_append.mp inside with early | here
        · have below := (List.pairwise_append.mp sorted).2.2 _ early t (List.mem_singleton_self t)
          dsimp only at below
          omega
        · have same := congrArg Prod.fst (List.mem_singleton.mp here)
          dsimp only at same
          omega
      have exact_degree := Polynomial.natDegree_eq_of_le_of_coeff_ne_zero above
        (value ▸ p.nonzero t member)
      rw [degree_eq, lead_eq, Polynomial.leadingCoeff, exact_degree, value]
      exact ⟨rfl, rfl⟩

theorem degree_eq (p : Poly) : p.degree = p.toPolynomial.natDegree := p.degree_and_leadingCoeff.1

theorem leadingCoeff_eq (p : Poly) : p.leadingCoeff = p.toPolynomial.leadingCoeff :=
  p.degree_and_leadingCoeff.2

theorem degree_le_of_mem {p : Poly} {t : ℕ × ℚ} (member : t ∈ p.terms) : t.1 ≤ p.degree := by
  rw [degree_eq]
  apply Polynomial.le_natDegree_of_ne_zero
  rw [coeff_toPolynomial, coeff, coeffIn_of_mem p.ascending member]
  exact p.nonzero t member

theorem degree_lt (p : Poly) : p.degree < exponentBound := by
  cases last : p.terms.getLast? with
  | none =>
      rw [degree, degree?, last]
      exact Nat.zero_lt_succ _
  | some t =>
      rw [degree, degree?, last]
      exact p.bounded t (List.mem_of_getLast? last)

theorem neg_monomial (d : ℕ) (c : ℚ) : (monomial d c).neg = monomial d (-c) := by
  apply toPolynomial_injective
  simp [monomial, toPolynomial_addTerm]

theorem degree_monomial {d : ℕ} (small : d < exponentBound) {c : ℚ} (c_ne : c ≠ 0) :
    (monomial d c).degree = d := by
  rw [degree_eq, toPolynomial_monomial small, natDegree_monomial_eq d c_ne]

/-- A polynomial is its leading coefficient times its monic multiple. -/
theorem leadingCoeff_mul_monic (p : Poly) :
    C p.leadingCoeff * p.monic.toPolynomial = p.toPolynomial := by
  rw [monic]
  split
  next vanishes => simp [eq_zero_of_isZero vanishes]
  next nonzero =>
    have lead_ne := leadingCoeff_ne_zero (by simpa using nonzero)
    rw [toPolynomial_scale, ← mul_assoc, ← C_mul, mul_inv_cancel₀ lead_ne, C_1, one_mul]

section Multiples
variable {p q : Poly} {c : Rat}

theorem scale_injective (c_ne : c ≠ 0) (same : p.scale c = q.scale c) : p = q := by
  apply toPolynomial_injective
  have product := congrArg toPolynomial same
  rw [toPolynomial_scale, toPolynomial_scale] at product
  exact mul_left_cancel₀ (C_ne_zero.mpr c_ne) product

theorem scale_one (p : Poly) : p.scale 1 = p := by
  apply toPolynomial_injective
  rw [toPolynomial_scale, map_one, one_mul]

theorem scale_scale (p : Poly) (a c : Rat) : (p.scale a).scale c = p.scale (c * a) := by
  apply toPolynomial_injective
  rw [toPolynomial_scale, toPolynomial_scale, toPolynomial_scale, C_mul, mul_assoc]

theorem scale_monic (p : Poly) : p.monic.scale p.leadingCoeff = p := by
  apply toPolynomial_injective
  rw [toPolynomial_scale, leadingCoeff_mul_monic]

theorem leadingCoeff_scale (p : Poly) (c : Rat) : (p.scale c).leadingCoeff = c * p.leadingCoeff := by
  rw [leadingCoeff_eq, toPolynomial_scale, Polynomial.leadingCoeff_mul, leadingCoeff_C, leadingCoeff_eq]

theorem monic_eq_scale (h : p.isZero = false) : p.monic = p.scale p.leadingCoeff⁻¹ := by
  have nonzero : ¬ p.isZero = true := by simp [h]
  rw [monic, if_neg nonzero]

theorem leadingCoeff_monic (h : p.isZero = false) : p.monic.leadingCoeff = 1 := by
  rw [monic_eq_scale h, leadingCoeff_scale, inv_mul_cancel₀ (leadingCoeff_ne_zero h)]

theorem isZero_eq_false (h : p.toPolynomial ≠ 0) : p.isZero = false := by
  by_contra vanishes
  exact h ((toPolynomial_eq_zero_iff p).mpr (by simpa using vanishes))

theorem isZero_scale (c_ne : c ≠ 0) (h : p.isZero = false) : (p.scale c).isZero = false := by
  apply isZero_eq_false
  rw [toPolynomial_scale]
  exact mul_ne_zero (C_ne_zero.mpr c_ne) (toPolynomial_ne_zero h)

theorem isZero_monic (h : p.isZero = false) : p.monic.isZero = false := by
  apply isZero_eq_false
  intro vanishes
  have product := leadingCoeff_mul_monic p
  rw [vanishes, mul_zero] at product
  exact toPolynomial_ne_zero h product.symm

theorem monic_scale (c_ne : c ≠ 0) (h : p.isZero = false) : (p.scale c).monic = p.monic := by
  apply scale_injective (c := c * p.leadingCoeff) (mul_ne_zero c_ne (leadingCoeff_ne_zero h))
  rw [← leadingCoeff_scale, scale_monic, leadingCoeff_scale]
  apply toPolynomial_injective
  rw [toPolynomial_scale, toPolynomial_scale, C_mul, mul_assoc, leadingCoeff_mul_monic]

theorem degree_scale (p : Poly) (c_ne : c ≠ 0) : (p.scale c).degree = p.degree := by
  rw [degree_eq, degree_eq, toPolynomial_scale, natDegree_C_mul c_ne]

theorem degree_monic (p : Poly) : p.monic.degree = p.degree := by
  cases vanishes : p.isZero with
  | true => rw [monic, if_pos vanishes]
  | false =>
      have lead_ne := leadingCoeff_ne_zero vanishes
      rw [degree_eq, degree_eq, ← leadingCoeff_mul_monic p, natDegree_C_mul lead_ne]

theorem monic_const (c_ne : c ≠ 0) : (const c).monic = one := by
  have constant : const c = one.scale c := by
    apply toPolynomial_injective
    rw [toPolynomial_const, toPolynomial_scale, toPolynomial_one, mul_one]
  have unit : one.monic = one := by decide +kernel
  rw [constant, monic_scale c_ne rfl, unit]

theorem leadingCoeff_const (c : Rat) : (const c).leadingCoeff = c := by
  rw [leadingCoeff_eq, toPolynomial_const, leadingCoeff_C]

end Multiples
end SymbolicAlgebra.Poly
