import SymbolicAlgebra.Proofs.Arithmetic.Distribution
import SymbolicAlgebra.Proofs.Polynomial.Expression

/-! Polynomials with a cofactor: the sums that come from multiplying out a product of
sums and of other factors. The other factors stand in every term beside the power of
the symbol. -/

namespace SymbolicAlgebra.Expr

/-- Factors that stand beside a power of the symbol, none of them a sum or a divisor. -/
structure IsCofactor (name : String) (K : List Expr) : Prop where
  settled : Settled K
  new : var name ∉ K.map fun f => f.asPower.1
  noSum : ∀ f ∈ K, f.isSum = false
  noDivisor : ∀ f ∈ K, f.isDivisor = false

/-- The factors of a term with a cofactor. -/
def cofactorKey (name : String) (K : List Expr) (d : ℕ) : List Expr :=
  Sorting.sort le (powers (var name) d ++ K)

variable {name : String} {K M : List Expr} {f : Expr} {d n : ℕ}

namespace IsCofactor

theorem nil : IsCofactor name [] := ⟨.nil, List.not_mem_nil, List.forall_mem_nil _, List.forall_mem_nil _⟩

theorem settled_powers (h : IsCofactor name K) (d : ℕ) : Settled (powers (var name) d ++ K) :=
  h.settled.powers rfl rfl rfl h.new d

theorem settled_key (h : IsCofactor name K) (d : ℕ) : Settled (cofactorKey name K d) :=
  (h.settled_powers d).perm (Sorting.sort_perm le _).symm

theorem isKey (h : IsCofactor name K) (d : ℕ) : IsKey (cofactorKey name K d) := by
  have factors := (h.settled_powers d).factor
  by_cases empty : powers (var name) (d : ℚ) ++ K = []
  · rw [cofactorKey, empty]
    exact isKey_nil
  · obtain ⟨f, member⟩ := List.exists_mem_of_ne_nil _ empty
    apply isKey_sort_of_mem factors member
    rcases List.mem_append.mp member with power | other
    · exact isSum_powers_var power
    · exact h.noSum f other

theorem noDivisor_key (h : IsCofactor name K) (d : ℕ) : ∀ f ∈ cofactorKey name K d, f.isDivisor = false := by
  intro f member
  rcases List.mem_append.mp ((Sorting.mem_sort le f _).mp member) with power | other
  · exact isDivisor_powers_var d.cast_nonneg power
  · exact h.noDivisor f other

theorem left (h : IsCofactor name (K ++ M)) : IsCofactor name K := by
  have new := h.new
  rw [List.map_append, List.mem_append, not_or] at new
  exact {
    settled := { toIndependent := h.settled.toIndependent.left
                 evaluated := (List.forall_mem_append.mp h.settled.evaluated).1
                 plain := (List.forall_mem_append.mp h.settled.plain).1 }
    new := new.1
    noSum := (List.forall_mem_append.mp h.noSum).1
    noDivisor := (List.forall_mem_append.mp h.noDivisor).1 }

theorem perm (h : IsCofactor name K) (perm : K.Perm M) : IsCofactor name M where
  settled := h.settled.perm perm
  new := fun member => h.new ((perm.map _).mem_iff.mpr member)
  noSum := fun f member => h.noSum f (perm.mem_iff.mpr member)
  noDivisor := fun f member => h.noDivisor f (perm.mem_iff.mpr member)

theorem right (h : IsCofactor name (K ++ M)) : IsCofactor name M := (h.perm List.perm_append_comm).left

theorem single (h : IsCofactor name K) (member : f ∈ K) : IsCofactor name [f] := by
  obtain ⟨before, after, rfl⟩ := List.append_of_mem member
  exact (h.right : IsCofactor name ([f] ++ after)).left

end IsCofactor

theorem cofactorKey_perm (perm : K.Perm M) (d : ℕ) : cofactorKey name K d = cofactorKey name M d :=
  sort_eq_of_perm (perm.append_left _)

theorem cofactorKey_injective (same : cofactorKey name K d = cofactorKey name K n) : d = n := by
  have perm : (powers (var name) (d : ℚ) ++ K).Perm (powers (var name) (n : ℚ) ++ K) := by
    refine (Sorting.sort_perm le _).symm.trans ?_
    change (cofactorKey name K d).Perm _
    rw [same]
    exact Sorting.sort_perm le _
  have single (k : ℚ) : (powers (var name) k).length ≤ 1 := by
    unfold powers
    split
    · exact Nat.zero_le 1
    · split <;> exact Nat.le_refl 1
  have powers_perm := (List.perm_append_right_iff K).mp perm
  have powers_eq : powers (var name) (d : ℚ) = powers (var name) n := by
    have short := single (d : ℚ)
    generalize powers (var name) (d : ℚ) = l at powers_perm short
    match l, short with
    | [], _ => exact powers_perm.nil_eq
    | [f], _ => exact (List.singleton_perm.mp powers_perm)
  exact_mod_cast powers_injective rfl powers_eq

/-- Terms of two products meet by adding the exponents. -/
theorem times_cofactorKey (h : IsCofactor name (K ++ M)) (d n : ℕ) (q r : Rat) :
    (multiple q (cofactorKey name K d)).times (multiple r (cofactorKey name M n)) =
      multiple (q * r) (cofactorKey name (K ++ M) (d + n)) := by
  have product := times_powers (q := q) (r := r) (i := d) (j := n) rfl h.settled.toIndependent h.new
    (by
      rw [← multiple_perm (Sorting.sort_perm le (powers (var name) (d : ℚ) ++ K)),
        ← multiple_perm (Sorting.sort_perm le (powers (var name) (n : ℚ) ++ M))]
      exact .of_keys (h.left.isKey d) (h.right.isKey n) q r)
  rw [cofactorKey, cofactorKey, cofactorKey, multiple_perm (Sorting.sort_perm le _),
    multiple_perm (Sorting.sort_perm le _), multiple_perm (Sorting.sort_perm le _), product, Nat.cast_add]

end SymbolicAlgebra.Expr

namespace SymbolicAlgebra.Poly
open Polynomial SymbolicAlgebra.Expr Tally

variable {name : String} {K M : List Expr} {f g : ℚ[X]} {p : Poly} {c : Rat}

/-- The terms of a polynomial, in ascending order. In an expression the degrees are not
bounded by a machine word. -/
noncomputable def termsOf (f : ℚ[X]) : List (ℕ × ℚ) := f.support.sort.map fun d => (d, f.coeff d)

theorem termsOf_ascending (f : ℚ[X]) : (termsOf f).Pairwise fun s t => s.1 < t.1 :=
  List.pairwise_map.mpr f.support.sortedLT_sort.pairwise

theorem termsOf_nonzero (f : ℚ[X]) : ∀ t ∈ termsOf f, t.2 ≠ 0 :=
  List.forall_mem_map.mpr fun _ member => mem_support_iff.mp ((Finset.mem_sort _).mp member)

theorem length_termsOf (f : ℚ[X]) : (termsOf f).length = f.support.card := by
  rw [termsOf, List.length_map, Finset.length_sort]

theorem length_termsOf_pos (f_ne : f ≠ 0) : 0 < (termsOf f).length := by
  rw [length_termsOf, Finset.card_pos, support_nonempty]
  exact f_ne

theorem length_termsOf_mul (f g : ℚ[X]) : (termsOf (f * g)).length ≤ (termsOf f).length * (termsOf g).length := by
  rw [length_termsOf, length_termsOf, length_termsOf]
  exact card_support_mul_le

theorem sumOfTerms_termsOf (f : ℚ[X]) : sumOfTerms (termsOf f) = f := by
  have sum := List.sum_toFinset (fun d => Polynomial.monomial d (f.coeff d)) (f.support.sort_nodup (· ≤ ·))
  rw [Finset.sort_toFinset, ← as_sum_support] at sum
  rw [sumOfTerms, termsOf, List.map_map]
  exact sum.symm

/-- The terms are known by the polynomial. -/
theorem termsOf_eq {terms : List (ℕ × ℚ)} (ascending : terms.Pairwise fun s t => s.1 < t.1)
    (nonzero : ∀ t ∈ terms, t.2 ≠ 0) (same : f = sumOfTerms terms) : termsOf f = terms := by
  apply terms_unique (termsOf_ascending f) ascending (termsOf_nonzero f) nonzero
  intro n
  rw [← coeff_sumOfTerms (termsOf_ascending f), ← coeff_sumOfTerms ascending, sumOfTerms_termsOf, same]

theorem termsOf_toPolynomial (p : Poly) : termsOf p.toPolynomial = p.terms :=
  termsOf_eq p.ascending p.nonzero rfl

theorem ne_zero_of_termsOf (h : termsOf f ≠ []) : f ≠ 0 := by
  rintro rfl
  exact h (List.eq_nil_of_length_eq_zero (length_termsOf 0))

theorem termsOf_monomial (d : ℕ) (c_ne : c ≠ 0) : termsOf (Polynomial.monomial d c) = [(d, c)] := by
  apply termsOf_eq (List.pairwise_singleton _ _) (List.forall_mem_singleton.mpr c_ne)
  rw [sumOfTerms_cons, sumOfTerms_nil, add_zero]

theorem termsOf_X_pow (d : ℕ) : termsOf (X ^ d) = [(d, 1)] := by
  rw [X_pow_eq_monomial, termsOf_monomial d one_ne_zero]

/-- The amounts of a polynomial with a cofactor. -/
noncomputable def amountsOver (name : String) (K : List Expr) (f : ℚ[X]) : LikeTerms :=
  (termsOf f).map fun t => (cofactorKey name K t.1, t.2)

/-- A polynomial with a cofactor, multiplied out. -/
noncomputable def withCofactor (name : String) (K : List Expr) (f : ℚ[X]) : Expr :=
  collected (amountsOver name K f)

theorem withCofactor_perm (perm : K.Perm M) (f : ℚ[X]) : withCofactor name K f = withCofactor name M f := by
  simp only [withCofactor, amountsOver, cofactorKey_perm perm]

theorem cofactorKey_nil (name : String) (d : ℕ) : cofactorKey name [] d = powers (.var name) d := by
  rw [cofactorKey, List.append_nil, (isKey_powers name d).sorted]

theorem withCofactor_nil (name : String) (p : Poly) : withCofactor name [] p.toPolynomial = p.simplified name := by
  simp only [withCofactor, amountsOver, termsOf_toPolynomial, cofactorKey_nil]
  rfl

section Over
variable (h : IsCofactor name K)
include h

theorem keyed_withCofactor (f : ℚ[X]) : Keyed (amountsOver name K f) := by
  intro entry member
  obtain ⟨t, -, rfl⟩ := List.mem_map.mp member
  exact h.isKey t.1

theorem noDivisor_withCofactor (f : ℚ[X]) :
    ∀ entry ∈ amountsOver name K f, ∀ e ∈ entry.1, e.isDivisor = false := by
  intro entry member
  obtain ⟨t, -, rfl⟩ := List.mem_map.mp member
  exact h.noDivisor_key t.1

theorem pass_withCofactor (f : ℚ[X]) : (withCofactor name K f).pass = withCofactor name K f := by
  apply pass_collected (keyed_withCofactor h f)
  intro entry member
  obtain ⟨t, -, rfl⟩ := List.mem_map.mp member
  exact h.settled_key t.1

theorem withCofactor_monomial (d : ℕ) (c_ne : c ≠ 0) :
    withCofactor name K (Polynomial.monomial d c) = multiple c (cofactorKey name K d) := by
  rw [withCofactor, amountsOver, termsOf_monomial d c_ne, List.map_singleton, (h.isKey d).multiple_eq]

end Over

theorem distinct_withCofactor (name : String) (K : List Expr) (f : ℚ[X]) :
    ((amountsOver name K f).map Prod.fst).Nodup := by
  rw [amountsOver, List.map_map, List.Nodup, List.pairwise_map]
  refine (termsOf_ascending f).imp ?_
  intro s t below same
  exact below.ne (cofactorKey_injective same)

theorem nonzero_withCofactor (name : String) (K : List Expr) (f : ℚ[X]) :
    ∀ entry ∈ amountsOver name K f, entry.2 ≠ 0 := by
  intro entry member
  obtain ⟨t, listed, rfl⟩ := List.mem_map.mp member
  exact termsOf_nonzero f t listed

theorem amountsOver_ne_nil (name : String) (K : List Expr) (f_ne : f ≠ 0) : amountsOver name K f ≠ [] := by
  intro empty
  have positive := length_termsOf_pos f_ne
  rw [List.map_eq_nil_iff.mp empty] at positive
  exact Nat.lt_irrefl 0 positive

theorem termCount_withCofactor (h : IsCofactor name K) (f_ne : f ≠ 0) :
    (withCofactor name K f).termCount = (termsOf f).length := by
  rw [← length_termsWithSign _ false]
  have shown := length_terms_collected (keyed_withCofactor h f) (distinct_withCofactor name K f)
    (nonzero_withCofactor name K f)
    (amountsOver_ne_nil name K f_ne)
  exact shown.trans (List.length_map _)

/-- The factors of the product of two products. -/
def joinedFactors (l m : List Expr) : List Expr :=
  Sorting.sort le ((multiple 1 l).times (multiple 1 m)).factors

section Product
variable (h : IsCofactor name (K ++ M))
include h

theorem joinedFactors_cofactorKey (d n : ℕ) :
    joinedFactors (cofactorKey name K d) (cofactorKey name M n) = cofactorKey name (K ++ M) (d + n) := by
  have key := h.isKey (d + n)
  rw [joinedFactors, times_cofactorKey h, mul_one, multiple_one key.toIsMonic, factors_sortedProduct key.atoms,
    key.sorted, key.sorted]

/-- Two polynomials with cofactors are multiplied out to their product. -/
theorem expandTimes_withCofactor (f_ne : f ≠ 0) (g_ne : g ≠ 0)
    (few : (termsOf f).length * (termsOf g).length ≤ expansionLimit) :
    expandTimes (withCofactor name K f) (withCofactor name M g) = withCofactor name (K ++ M) (f * g) := by
  have swapped (d n : ℕ) (q r : Rat) :
      (multiple q (cofactorKey name M d)).times (multiple r (cofactorKey name K n)) =
        multiple (q * r) (cofactorKey name (K ++ M) (n + d)) := by
    rw [times_cofactorKey (h.perm List.perm_append_comm), cofactorKey_perm List.perm_append_comm,
      add_comm n]
  have products : distributed joinedFactors (amountsOver name K f) (amountsOver name M g) =
      (products (termsOf f) (termsOf g)).map fun t => (cofactorKey name (K ++ M) t.1, t.2) := by
    simp only [Poly.products, distributed, amountsOver, List.flatMap_map, List.map_map, Function.comp_def,
      joinedFactors_cofactorKey h, List.map_flatMap]
  rw [withCofactor, withCofactor, expandTimes_distributed (keyed_withCofactor h.left f)
    (keyed_withCofactor h.right g) _ _ (noDivisor_withCofactor h.left f)
    (noDivisor_withCofactor h.right g) (distinct_withCofactor name M g) (nonzero_withCofactor name M g)
    (amountsOver_ne_nil name M g_ne) _, products]
  · apply collected_congr
    · intro entry member
      obtain ⟨t, -, rfl⟩ := List.mem_map.mp member
      exact (h.isKey t.1).toIsTerm
    · exact (keyed_withCofactor h (f * g)).terms
    · intro w
      rw [weighted_terms, sumOfTerms_products, amountsOver, weighted_terms, sumOfTerms_termsOf,
        sumOfTerms_termsOf, sumOfTerms_termsOf]
  · intro t member
    obtain ⟨t, -, rfl⟩ := List.mem_map.mp member
    intro entry inside
    obtain ⟨s, -, rfl⟩ := List.mem_map.mp inside
    simp only [joinedFactors_cofactorKey h]
    exact ⟨h.isKey _, times_cofactorKey h s.1 t.1⟩
  · intro s member
    obtain ⟨s, -, rfl⟩ := List.mem_map.mp member
    intro entry inside
    obtain ⟨t, -, rfl⟩ := List.mem_map.mp inside
    simp only [joinedFactors_cofactorKey h]
    exact ⟨h.isKey _, swapped t.1 s.1⟩
  · have left := termCount_withCofactor h.left f_ne
    have right := termCount_withCofactor h.right g_ne
    rw [withCofactor] at left right
    rwa [left, right]

end Product

end SymbolicAlgebra.Poly
