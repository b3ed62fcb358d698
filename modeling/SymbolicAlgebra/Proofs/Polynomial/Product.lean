import Mathlib.RingTheory.AdjoinRoot
import SymbolicAlgebra.Proofs.Polynomial

/-! Products and powers. The degrees of terms are added as machine words, so a product is
that of the ring of polynomials up to multiples of `X ^ exponentBound - 1`. Below the
bound these make no difference, so a product whose degree fits is exact. -/

namespace SymbolicAlgebra.Poly
open Polynomial

variable {p q : Poly} {f g : ℚ[X]} {n : ℕ}

/-- The terms of a product, before like terms are collected. -/
def products (l m : List (ℕ × ℚ)) : List (ℕ × ℚ) :=
  l.flatMap fun s => m.map fun t => (s.1 + t.1, s.2 * t.2)

theorem sumOfTerms_products (l m : List (ℕ × ℚ)) :
    sumOfTerms (products l m) = sumOfTerms l * sumOfTerms m := by
  induction l with
  | nil => exact (zero_mul _).symm
  | cons s rest ih =>
      rw [products] at ih ⊢
      rw [List.flatMap_cons, sumOfTerms_append, ih, sumOfTerms_map_mul, sumOfTerms_cons, add_mul]

theorem degree_le_of_mem_products {t : ℕ × ℚ} (member : t ∈ products p.terms q.terms) :
    t.1 ≤ p.degree + q.degree := by
  obtain ⟨s, first, inside⟩ := List.mem_flatMap.mp member
  obtain ⟨u, second, rfl⟩ := List.mem_map.mp inside
  exact Nat.add_le_add (degree_le_of_mem first) (degree_le_of_mem second)

/-- A product is the sum of the products of terms, with degrees that wrap around. -/
theorem toPolynomial_mul_eq (p q : Poly) :
    (p.mul q).toPolynomial = sumOfTerms ((products p.terms q.terms).map wrapTerm) := by
  have folded : p.mul q = (products p.terms q.terms).foldl addTerm zero := by
    simp only [mul, products, List.foldl_flatMap, List.foldl_map]
  rw [folded]
  exact (toPolynomial_foldl _ id zero).trans (zero_add _)

section Residue
variable {m : ℕ}

/-- Polynomials up to multiples of `X ^ m - 1`. -/
def Residues (m : ℕ) : Type := AdjoinRoot (X ^ m - 1 : ℚ[X])

noncomputable instance (m : ℕ) : CommRing (Residues m) :=
  inferInstanceAs (CommRing (AdjoinRoot (X ^ m - 1 : ℚ[X])))

noncomputable def residueMod (m : ℕ) : ℚ[X] →+* Residues m := AdjoinRoot.mk _

theorem residueMod_X_pow (m : ℕ) : residueMod m (X ^ m) = 1 := by
  have root : residueMod m (X ^ m - 1) = 0 := AdjoinRoot.mk_self
  rwa [map_sub, map_one, sub_eq_zero] at root

theorem residueMod_monomial (m d : ℕ) (c : ℚ) :
    residueMod m (Polynomial.monomial (d % m) c) = residueMod m (Polynomial.monomial d c) := by
  have split : Polynomial.monomial d c = Polynomial.monomial (d % m) c * (X ^ m) ^ (d / m) := by
    rw [← pow_mul, X_pow_eq_monomial, monomial_mul_monomial, mul_one, Nat.mod_add_div]
  rw [split, map_mul, map_pow, residueMod_X_pow, one_pow, mul_one]

/-- Below the exponent the residue decides. -/
theorem eq_of_residueMod (small_f : f.natDegree < m) (small_g : g.natDegree < m)
    (same : residueMod m f = residueMod m g) : f = g := by
  have divides : X ^ m - C 1 ∣ f - g := AdjoinRoot.mk_eq_mk.mp same
  rw [← sub_eq_zero]
  apply eq_zero_of_dvd_of_natDegree_lt divides
  rw [natDegree_X_pow_sub_C]
  exact (natDegree_sub_le f g).trans_lt (max_lt small_f small_g)

end Residue

/-- What wrapping does not change. -/
noncomputable def residue (p : Poly) : Residues exponentBound := residueMod exponentBound p.toPolynomial

theorem residueMod_wrapped (terms : List (ℕ × ℚ)) :
    residueMod exponentBound (sumOfTerms (terms.map wrapTerm)) = residueMod exponentBound (sumOfTerms terms) := by
  induction terms with
  | nil => rfl
  | cons t rest ih =>
      rw [List.map_cons, sumOfTerms_cons, sumOfTerms_cons, map_add, map_add, ih,
        ← residueMod_monomial exponentBound t.1]
      rfl

@[simp] theorem residue_zero : zero.residue = 0 := map_zero _

@[simp] theorem residue_one : one.residue = 1 := by
  rw [residue, toPolynomial_one, map_one]

@[simp] theorem residue_mul (p q : Poly) : (p.mul q).residue = p.residue * q.residue := by
  rw [residue, toPolynomial_mul_eq, residueMod_wrapped, sumOfTerms_products, map_mul]
  rfl

@[simp] theorem residue_pow (p : Poly) (n : ℕ) : (p.pow n).residue = p.residue ^ n := by
  induction n using Nat.strong_induction_on generalizing p with
  | _ n ih =>
      rw [pow]
      split
      next zero => rw [zero, pow_zero, residue_one]
      split
      next one => rw [one, pow_one]
      next zero_ne one_ne =>
        have root := ih (n / 2) (by omega) (p.mul p)
        rw [residue_mul, ← sq, ← pow_mul] at root
        dsimp only
        split
        next odd =>
          rw [residue_mul, root, ← pow_succ]
          congr 1
          omega
        next even =>
          rw [root]
          congr 1
          omega

theorem natDegree_lt (p : Poly) : p.toPolynomial.natDegree < exponentBound := p.degree_eq ▸ p.degree_lt

/-- All degrees are below the bound, so the residue decides. -/
theorem residue_injective (same : p.residue = q.residue) : p = q :=
  toPolynomial_injective (eq_of_residueMod p.natDegree_lt q.natDegree_lt same)

/-- A product is that of the ring, unless its degree is too large for a machine word. -/
theorem toPolynomial_mul (small : p.degree + q.degree < exponentBound) :
    (p.mul q).toPolynomial = p.toPolynomial * q.toPolynomial := by
  rw [degree_eq, degree_eq] at small
  apply eq_of_residueMod (natDegree_lt _) (natDegree_mul_le.trans_lt small)
  rw [map_mul]
  exact residue_mul p q

theorem toPolynomial_pow (small : n * p.degree < exponentBound) :
    (p.pow n).toPolynomial = p.toPolynomial ^ n := by
  rw [degree_eq, ← natDegree_pow] at small
  apply eq_of_residueMod (natDegree_lt _) small
  rw [map_pow]
  exact residue_pow p n

section Nonzero
variable (p_ne : p.isZero = false) (q_ne : q.isZero = false) (small : p.degree + q.degree < exponentBound)
include p_ne q_ne small

theorem degree_mul : (p.mul q).degree = p.degree + q.degree := by
  rw [degree_eq, toPolynomial_mul small,
    natDegree_mul (toPolynomial_ne_zero p_ne) (toPolynomial_ne_zero q_ne), degree_eq, degree_eq]

theorem isZero_mul : (p.mul q).isZero = false := by
  apply isZero_eq_false
  rw [toPolynomial_mul small]
  exact mul_ne_zero (toPolynomial_ne_zero p_ne) (toPolynomial_ne_zero q_ne)

end Nonzero

end SymbolicAlgebra.Poly
