import Mathlib.Algebra.BigOperators.Ring.List
import SymbolicAlgebra.Proofs.Polynomial.Cofactor

/-! A product of powers of the symbol, of sums and of other factors, multiplied out. Each
factor is read as a polynomial with a cofactor, and whatever the order of the factors,
their polynomials are multiplied and their cofactors listed. -/

namespace SymbolicAlgebra.Expr
open Polynomial
open SymbolicAlgebra.Poly (simplified withCofactor termsOf)

variable {name : String} {e f : Expr} {l K : List Expr} {g r : ℚ[X]} {p : Poly} {c : Rat}

/-- A factor with the polynomial and the cofactor that it multiplies out to. -/
structure PolyFactor where
  expr : Expr
  others : List Expr
  poly : ℚ[X]

namespace PolyFactor

structure Valid (name : String) (f : PolyFactor) : Prop where
  expand : f.expr.expand = withCofactor name f.others f.poly
  nonzero : f.poly ≠ 0

variable {L : List PolyFactor}

theorem prod_poly_ne_zero (valid : ∀ f ∈ L, f.Valid name) : (L.map poly).prod ≠ 0 := by
  apply List.prod_ne_zero
  intro zero_mem
  obtain ⟨f, member, none⟩ := List.mem_map.mp zero_mem
  exact (valid f member).nonzero none

theorem expand_foldl_mul (valid : ∀ f ∈ L, f.Valid name) (start : e.expand = withCofactor name K g)
    (g_ne : g ≠ 0) (h : IsCofactor name (K ++ L.flatMap others))
    (few : (termsOf g).length * (L.map fun f => (termsOf f.poly).length).prod ≤ expansionLimit) :
    ((L.map expr).foldl mul e).expand =
      withCofactor name (K ++ L.flatMap others) (g * (L.map poly).prod) := by
  induction L generalizing e K g with
  | nil => simpa using start
  | cons f rest ih =>
      obtain ⟨first, others⟩ := List.forall_mem_cons.mp valid
      rw [List.flatMap_cons, ← List.append_assoc] at h ⊢
      rw [List.map_cons, List.prod_cons, ← mul_assoc] at few
      have rest_pos : 0 < (rest.map fun f => (termsOf f.poly).length).prod := by
        apply Nat.pos_of_ne_zero
        apply List.prod_ne_zero
        intro zero_mem
        obtain ⟨g, member, none⟩ := List.mem_map.mp zero_mem
        exact (Poly.length_termsOf_pos (others g member).nonzero).ne' none
      have multiplied : (mul e f.expr).expand = withCofactor name (K ++ f.others) (g * f.poly) := by
        rw [Expr.expand, start, first.expand]
        exact Poly.expandTimes_withCofactor h.left g_ne first.nonzero ((Nat.le_mul_of_pos_right _ rest_pos).trans few)
      rw [List.map_cons, List.foldl_cons, List.map_cons, List.prod_cons, ← mul_assoc]
      apply ih others multiplied (mul_ne_zero g_ne first.nonzero) h
      exact (Nat.mul_le_mul_right _ (Poly.length_termsOf_mul g f.poly)).trans few

theorem expand_product (valid : ∀ f ∈ L, f.Valid name) (some_factor : L ≠ [])
    (h : IsCofactor name (L.flatMap others))
    (few : (L.map fun f => (termsOf f.poly).length).prod ≤ expansionLimit) :
    (product (L.map expr)).expand = withCofactor name (L.flatMap others) (L.map poly).prod := by
  cases L with
  | nil => exact absurd rfl some_factor
  | cons f rest =>
      obtain ⟨first, others⟩ := List.forall_mem_cons.mp valid
      exact expand_foldl_mul others first.expand first.nonzero h few

/-- A multiple of such factors, whatever their order. A minus sign stays in front. -/
theorem expand_multiple (valid : ∀ f ∈ L, f.Valid name) (some_factor : L ≠ [])
    (factors : ∀ f ∈ l, f.isFactor = true) (perm : l.Perm (L.map expr))
    (h : IsCofactor name (L.flatMap others))
    (few : (L.map fun f => (termsOf f.poly).length).prod ≤ expansionLimit)
    (total : (L.map poly).prod = r) (short : (termsOf r).length ≤ expansionLimit) (c_ne : c ≠ 0) :
    (multiple c l).expand = if c = -1 then (withCofactor name (L.flatMap others) r).negate
      else withCofactor name (L.flatMap others) (C c * r) := by
  have sorted : (Sorting.sort le l).Perm (L.map expr) := (Sorting.sort_perm le l).trans perm
  obtain ⟨M, listed, reordered⟩ :
      Relation.Comp (fun l L => l = L.map expr) List.Perm (Sorting.sort le l) L := by
    rw [List.eq_map_comp_perm]
    exact sorted
  have product : (sortedProduct l).expand = withCofactor name (L.flatMap others) r := by
    have others_perm := reordered.flatMap_right others
    rw [sortedProduct_eq (atoms factors), listed, ← Poly.withCofactor_perm others_perm, ← total,
      ← (reordered.map poly).prod_eq]
    apply expand_product
    · exact fun f member => valid f (reordered.mem_iff.mp member)
    · rintro rfl
      exact some_factor reordered.symm.eq_nil
    · exact h.perm others_perm.symm
    · rwa [(reordered.map _).prod_eq]
  have l_ne : l ≠ [] := by
    rintro rfl
    exact some_factor (List.map_eq_nil_iff.mp perm.symm.eq_nil)
  obtain ⟨rfl, same⟩ | ⟨rfl, same⟩ | ⟨-, opposite_ne, same⟩ := multiple_cases (isMonic factors) c_ne l_ne
  · rw [same, product, if_neg (by decide), C_1, one_mul]
  · rw [same, Expr.expand, product, if_pos rfl]
  · have number : (const c).expand = withCofactor name [] (C c) := by
      rw [← Poly.toPolynomial_const, Poly.withCofactor_nil, Poly.simplified_const]
      rfl
    have one_term : (termsOf (C c)).length = 1 := by
      rw [← monomial_zero_left, Poly.termsOf_monomial 0 c_ne]
      rfl
    rw [same, if_neg opposite_ne, Expr.expand, number, product,
      Poly.expandTimes_withCofactor (by rwa [List.nil_append]) (C_ne_zero.mpr c_ne)
        (total ▸ prod_poly_ne_zero valid) (by rwa [one_term, Nat.one_mul]), List.nil_append]

/-- A factor that no sum meets stands beside the symbol. -/
noncomputable def other (f : Expr) : PolyFactor := ⟨f, [f], 1⟩

noncomputable def ofSum (name : String) (p : Poly) : PolyFactor := ⟨p.simplified name, [], p.toPolynomial⟩

noncomputable def ofPower (d : ℕ) (f : Expr) : PolyFactor := ⟨f, [], X ^ d⟩

theorem withCofactor_X_pow (h : IsCofactor name K) (d : ℕ) :
    withCofactor name K (X ^ d) = multiple 1 (cofactorKey name K d) := by
  rw [X_pow_eq_monomial, Poly.withCofactor_monomial h d one_ne_zero]

theorem valid_other (h : IsCofactor name [f]) : (other f).Valid name where
  nonzero := one_ne_zero
  expand := by
    have factor := List.forall_mem_singleton.mp h.settled.factor
    have plain := List.forall_mem_singleton.mp h.noSum
    have key : cofactorKey name [f] 0 = [f] := by
      rw [cofactorKey, Nat.cast_zero, powers_zero]
      rfl
    have kept : f.expand = f := by
      cases f <;> first | rfl | simp_all [isFactor, isSum]
    have unit := withCofactor_X_pow h 0
    rw [pow_zero, key, multiple_one_singleton factor] at unit
    exact kept.trans unit.symm

theorem valid_ofPower {d : ℕ} (member : f ∈ powers (var name) d) : (ofPower d f).Valid name where
  nonzero := pow_ne_zero d X_ne_zero
  expand := by
    have kept : f.expand = multiple 1 (powers (var name) d) := by
      unfold powers at member ⊢
      split at member
      · cases member
      next d_ne =>
        rw [if_neg d_ne]
        split at member
        next one =>
          rw [if_pos one, List.mem_singleton.mp member, multiple_one_singleton rfl]
          rfl
        next one_ne =>
          rw [if_neg one_ne, List.mem_singleton.mp member, multiple_one_singleton rfl]
          rfl
    change f.expand = withCofactor name [] (X ^ d)
    rw [kept, withCofactor_X_pow .nil, Poly.cofactorKey_nil]

theorem expand_multiple_powers (name : String) (d : ℕ) (c_ne : c ≠ 0) :
    (multiple c (powers (var name) d)).expand = multiple c (powers (var name) d) := by
  by_cases d_ne : d = 0
  · rw [d_ne, Nat.cast_zero, powers_zero, multiple_nil]
    rfl
  have key := isKey_powers name d
  have listed := Poly.powers_eq name d_ne
  have member : Poly.powerExpr name d ∈ powers (var name) d := listed ▸ List.mem_singleton_self _
  have expanded := expand_multiple (L := [ofPower d (Poly.powerExpr name d)]) (r := X ^ d)
    (List.forall_mem_singleton.mpr (valid_ofPower member)) (List.cons_ne_nil _ _) key.factors
    (by rw [listed]; exact .refl _) .nil (by simp [ofPower, Poly.termsOf_X_pow, expansionLimit])
    List.prod_singleton (by simp [Poly.termsOf_X_pow, expansionLimit]) c_ne
  have nothing : [ofPower d (Poly.powerExpr name d)].flatMap others = [] := rfl
  rw [expanded, nothing, withCofactor_X_pow .nil, C_mul_X_pow_eq_monomial,
    Poly.withCofactor_monomial .nil d c_ne, Poly.cofactorKey_nil, negate_multiple key.toIsMonic]
  split
  next opposite => rw [opposite]
  next => rfl

theorem expand_simplified (name : String) (p : Poly) : (p.simplified name).expand = p.simplified name := by
  apply collected_fixed (Poly.keyed_amounts name p).terms (fun _ _ => rfl) rfl
  intro entry member c c_ne
  obtain ⟨t, -, key⟩ := Poly.exists_term member
  rw [key, expand_multiple_powers name t.1 c_ne]

theorem valid_ofSum (p_ne : p.isZero = false) : (ofSum name p).Valid name where
  nonzero := Poly.toPolynomial_ne_zero p_ne
  expand := (expand_simplified name p).trans (Poly.withCofactor_nil name p).symm

/-- A power of the symbol, other factors and sums. -/
noncomputable def listOf (name : String) (i : ℕ) (K : List Expr) (P : List Poly) : List PolyFactor :=
  (powers (var name) i).map (ofPower i) ++ K.map other ++ P.map (ofSum name)

section List
variable (name : String) (i : ℕ) (K : List Expr) (P : List Poly)

theorem expr_listOf :
    (listOf name i K P).map expr = powers (var name) i ++ K ++ P.map (simplified name) := by
  simp [listOf, Function.comp_def, ofPower, other, ofSum]

theorem others_listOf : (listOf name i K P).flatMap others = K := by
  have nothing {α : Type} (l : List α) : l.flatMap (fun _ => ([] : List Expr)) = [] :=
    List.flatMap_eq_nil_iff.mpr fun _ _ => rfl
  simp [listOf, List.flatMap_map, ofPower, other, ofSum, nothing]

theorem length_terms_listOf : ((listOf name i K P).map fun f => (termsOf f.poly).length).prod =
    (P.map fun p => p.terms.length).prod := by
  have unit : termsOf (1 : ℚ[X]) = [(0, 1)] := Poly.termsOf_X_pow 0
  simp [listOf, Function.comp_def, ofPower, other, ofSum, Poly.termsOf_X_pow, unit, Poly.termsOf_toPolynomial]

theorem poly_listOf : ((listOf name i K P).map poly).prod = X ^ i * (P.map Poly.toPolynomial).prod := by
  have power : (X ^ i : ℚ[X]) ^ (powers (var name) (i : ℚ)).length = X ^ i := by
    by_cases i_ne : i = 0
    · rw [i_ne, Nat.cast_zero, powers_zero, pow_zero, one_pow]
    · rw [Poly.powers_eq name i_ne, List.length_singleton, pow_one]
  simp [listOf, Function.comp_def, ofPower, other, ofSum, power]

end List

theorem valid_listOf {P : List Poly} (h : IsCofactor name K) (i : ℕ)
    (sums : ∀ p ∈ P, (p.simplified name).isSum = true) : ∀ f ∈ listOf name i K P, f.Valid name := by
  refine List.forall_mem_append.mpr ⟨List.forall_mem_append.mpr ⟨?_, ?_⟩, ?_⟩
  · exact List.forall_mem_map.mpr fun f member => valid_ofPower member
  · exact List.forall_mem_map.mpr fun f member => valid_other (h.single member)
  · refine List.forall_mem_map.mpr fun p member => valid_ofSum ?_
    by_contra vanishes
    obtain rfl : p = Poly.zero := Poly.eq_zero_of_isZero (by simpa using vanishes)
    cases sums _ member

end PolyFactor

/-- A multiple of a power of the symbol, of other factors and of sums, multiplied out. -/
theorem expand_factored {i : ℕ} {P : List Poly} (h : IsCofactor name K) (some_factor : K ≠ [])
    (sums : ∀ p ∈ P, (p.simplified name).isSum = true)
    (few : (P.map fun p => p.terms.length).prod ≤ expansionLimit)
    (total : r = X ^ i * (P.map Poly.toPolynomial).prod)
    (short : (termsOf r).length ≤ expansionLimit) (c_ne : c ≠ 0) :
    (multiple c (powers (var name) i ++ K ++ P.map (simplified name))).expand =
      if c = -1 then (withCofactor name K r).negate else withCofactor name K (C c * r) := by
  have factors : ∀ f ∈ powers (var name) i ++ K ++ P.map (simplified name), f.isFactor = true := by
    refine List.forall_mem_append.mpr ⟨List.forall_mem_append.mpr ⟨?_, h.settled.factor⟩, ?_⟩
    · exact isFactor_powers rfl i
    · exact List.forall_mem_map.mpr fun p member => isFactor_of_isBase (isBase_of_isSum (sums p member))
  have others := PolyFactor.others_listOf name i K P
  have proper : PolyFactor.listOf name i K P ≠ [] := by
    intro empty
    rw [empty] at others
    exact some_factor others.symm
  have lengths := PolyFactor.length_terms_listOf name i K P
  have expanded := PolyFactor.expand_multiple (PolyFactor.valid_listOf h i sums) proper factors
    (PolyFactor.expr_listOf name i K P ▸ .refl _) (others.symm ▸ h) (lengths.trans_le few)
    ((PolyFactor.poly_listOf name i K P).trans total.symm) short c_ne
  rw [expanded, others]

end SymbolicAlgebra.Expr
