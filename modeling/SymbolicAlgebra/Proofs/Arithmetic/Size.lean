import Mathlib.Algebra.BigOperators.Group.List.Lemmas
import Mathlib.Algebra.Order.BigOperators.Group.List
import SymbolicAlgebra.Proofs.Arithmetic.Sum

/-! How large multiples and sums are. A sum of different products is as large as its terms
and its signs together, and a product as large as its factors, its signs and its
coefficient. What an expression is taken apart into is no larger than the expression. -/

namespace SymbolicAlgebra.Expr
open Tally

variable {e f t : Expr} {l m : List Expr} {A : LikeTerms} {q : Rat}

theorem size_negate_le (e : Expr) : e.negate.size ≤ e.size + 1 := by
  induction e with
  | mul a b _ ih =>
      cases a with
      | const q =>
          simp only [negate, scaledWith]
          split
          next => simp [zero, size]
          split
          next => simp [size]
          split
          next => simp only [size]; omega
          split
          next => simp only [size]; omega
          next => simp [size]
      | _ => simp only [negate, size]; omega
  | neg a => simp only [negate, size]; omega
  | _ => simp [negate, size, Nat.add_comm]

/-- A term is at most as large as the expression, up to a sign, and smaller than a sum. -/
theorem size_of_mem_termsWithSign {negative : Bool} (member : t ∈ e.termsWithSign negative) :
    t.size + e.isSum.toNat ≤ e.size + negative.toNat := by
  induction e generalizing negative with
  | add a b iha ihb =>
      have := a.size_pos
      have := b.size_pos
      rw [size, isSum, Bool.toNat_true]
      rcases List.mem_append.mp member with left | right
      · have := iha left
        omega
      · have := ihb right
        omega
  | sub a b iha ihb =>
      have := a.size_pos
      have := b.size_pos
      have := Bool.toNat_le (!negative)
      rw [size, isSum, Bool.toNat_true]
      rcases List.mem_append.mp member with left | right
      · have := iha left
        omega
      · have := ihb right
        omega
  | neg a ih =>
      have := ih member
      have opposite : (!negative).toNat ≤ 1 + negative.toNat := by cases negative <;> decide
      have not_sum : (neg a).isSum.toNat = 0 := rfl
      rw [size, not_sum]
      omega
  | _ =>
      obtain rfl := List.mem_singleton.mp member
      cases negative with
      | false => exact Nat.le_refl _
      | true => exact size_negate_le _

theorem size_lt_of_mem_terms (sum : e.isSum = true) (member : t ∈ e.terms) : t.size < e.size := by
  have bound := size_of_mem_termsWithSign member
  rwa [sum] at bound

/-- What the parts of a list add to a sum or a product of them: each comes with a sign. -/
def totalSize (l : List Expr) : ℕ := (l.map fun e => e.size + 1).sum

theorem totalSize_nil : totalSize [] = 0 := rfl

@[simp] theorem totalSize_cons (e : Expr) (l : List Expr) :
    totalSize (e :: l) = e.size + 1 + totalSize l := by
  rw [totalSize, List.map_cons, List.sum_cons, totalSize]

@[simp] theorem totalSize_append (l m : List Expr) : totalSize (l ++ m) = totalSize l + totalSize m := by
  rw [totalSize, List.map_append, List.sum_append, totalSize, totalSize]

theorem totalSize_perm (perm : l.Perm m) : totalSize l = totalSize m :=
  (perm.map fun e : Expr => e.size + 1).sum_eq

theorem size_foldl_add (l : List Expr) (e : Expr) : (l.foldl add e).size = e.size + totalSize l := by
  induction l generalizing e with
  | nil => rfl
  | cons f rest ih =>
      rw [List.foldl_cons, ih, size, totalSize_cons]
      omega

theorem size_foldl_mul (l : List Expr) (e : Expr) : (l.foldl mul e).size = e.size + totalSize l := by
  induction l generalizing e with
  | nil => rfl
  | cons f rest ih =>
      rw [List.foldl_cons, ih, size, totalSize_cons]
      omega

theorem size_sum (some_term : l ≠ []) : (sum l).size + 1 = totalSize l := by
  cases l with
  | nil => exact absurd rfl some_term
  | cons f rest =>
      rw [sum, size_foldl_add, totalSize_cons]
      omega

theorem size_product (some_factor : l ≠ []) : (product l).size + 1 = totalSize l := by
  cases l with
  | nil => exact absurd rfl some_factor
  | cons f rest =>
      rw [product, size_foldl_mul, totalSize_cons]
      omega

/-- What a coefficient adds to a product: nothing, a sign, or a number and a product. -/
def coefficientSize (q : Rat) : ℕ := if q = 1 then 0 else if q = -1 then 1 else 2

theorem coefficientSize_le (q : Rat) : coefficientSize q ≤ 2 := by
  unfold coefficientSize
  split
  · exact Nat.zero_le 2
  · split <;> decide

theorem coefficientSize_eq_two (one_ne : q ≠ 1) (opposite_ne : q ≠ -1) : coefficientSize q = 2 := by
  rw [coefficientSize, if_neg one_ne, if_neg opposite_ne]

theorem coefficientSize_lt_two : coefficientSize q < 2 ↔ q = 1 ∨ q = -1 := by
  unfold coefficientSize
  split
  next one => simp [one]
  next one_ne => split <;> simp [*]

theorem totalSize_factors_le (e : Expr) : totalSize e.factors ≤ e.size + 1 := by
  induction e with
  | mul a b iha ihb =>
      rw [factors, totalSize_append, size]
      omega
  | const q =>
      simp only [factors]
      split
      next => exact Nat.zero_le _
      next => exact Nat.le_refl _
  | _ => exact Nat.le_refl _

theorem totalSize_filter_le (test : Expr → Bool) (l : List Expr) : totalSize (l.filter test) ≤ totalSize l :=
  (List.filter_sublist.map fun e : Expr => e.size + 1).sum_le_sum fun _ _ => Nat.zero_le _

theorem size_sortedProduct_le (proper : (sortedProduct l).isOne = false) :
    (sortedProduct l).size + 1 ≤ totalSize l := by
  have kept := totalSize_filter_le (fun e => !e.isOne) l
  have sorted := totalSize_perm (Sorting.sort_perm le (l.filter fun e => !e.isOne))
  by_cases empty : Sorting.sort le (l.filter fun e => !e.isOne) = []
  · rw [sortedProduct, empty] at proper
    cases proper
  · rw [sortedProduct, size_product empty, sorted]
    exact kept

theorem coefficientSize_mul_le (p q : Rat) :
    coefficientSize (p * q) ≤ coefficientSize p + coefficientSize q := by
  by_cases p_one : p = 1
  · rw [p_one, one_mul]
    exact Nat.le_add_left _ _
  by_cases q_one : q = 1
  · rw [q_one, mul_one]
    exact Nat.le_add_right _ _
  have p_pos : 1 ≤ coefficientSize p := by
    rw [coefficientSize, if_neg p_one]
    split <;> decide
  have q_pos : 1 ≤ coefficientSize q := by
    rw [coefficientSize, if_neg q_one]
    split <;> decide
  exact (coefficientSize_le _).trans (Nat.add_le_add p_pos q_pos)

theorem coefficientSize_neg_le (q : Rat) : coefficientSize (-q) ≤ 1 + coefficientSize q := by
  have sign := coefficientSize_mul_le (-1) q
  rwa [neg_one_mul] at sign

/-- The factors and the coefficient of a product are no larger than the product. -/
theorem totalSize_asMultiple_le (e : Expr) :
    totalSize e.asMultiple.2.factors + coefficientSize e.asMultiple.1 ≤ e.size + 1 := by
  induction e with
  | const q => simpa [asMultiple, one, factors, isOne, totalSize_nil, size] using coefficientSize_le q
  | neg a ih =>
      have sign := coefficientSize_neg_le a.asMultiple.1
      simp only [asMultiple, size]
      omega
  | mul a b iha ihb =>
      have coefficients := coefficientSize_mul_le a.asMultiple.1 b.asMultiple.1
      have factors := totalSize_factors_le (sortedProduct (a.asMultiple.2.factors ++ b.asMultiple.2.factors))
      simp only [asMultiple, size]
      cases one : (sortedProduct (a.asMultiple.2.factors ++ b.asMultiple.2.factors)).isOne with
      | true =>
          rw [(isOne_iff _).mp one]
          have nothing : totalSize Expr.one.factors = 0 := rfl
          omega
      | false =>
          have product := size_sortedProduct_le one
          rw [totalSize_append] at product
          omega
  | _ => exact totalSize_factors_le _

theorem size_asMultiple_le (proper : e.asMultiple.2.isOne = false) :
    e.asMultiple.2.size + coefficientSize e.asMultiple.1 ≤ e.size := by
  induction e with
  | neg a ih =>
      have sign := coefficientSize_neg_le a.asMultiple.1
      have inner := ih proper
      simp only [asMultiple, size]
      omega
  | mul a b =>
      have coefficients := coefficientSize_mul_le a.asMultiple.1 b.asMultiple.1
      have left := totalSize_asMultiple_le a
      have right := totalSize_asMultiple_le b
      have product := size_sortedProduct_le proper
      rw [totalSize_append] at product
      simp only [asMultiple, size]
      omega
  | const q => cases proper
  | _ => exact Nat.le_refl _

/-- A product with the opposite of a negative coefficient is no larger. -/
theorem size_scaled_neg_le (negative : e.asMultiple.1 < 0) :
    (scaled (-e.asMultiple.1) e.asMultiple.2).size ≤ e.size := by
  have positive := neg_pos.mpr negative
  have opposite_ne : -e.asMultiple.1 ≠ -1 := (neg_one_lt_zero.trans positive).ne'
  rw [scaled, scaledWith, if_neg positive.ne', if_neg opposite_ne]
  split
  next => exact e.size_pos
  next proper =>
    have whole := size_asMultiple_le (Bool.eq_false_iff.mpr proper)
    split
    next => exact (Nat.le_add_right _ _).trans whole
    next one_ne =>
      have opposite : e.asMultiple.1 ≠ -1 := fun same => one_ne (by rw [same, neg_neg])
      rw [coefficientSize_eq_two (negative.trans zero_lt_one).ne opposite] at whole
      simp only [size]
      omega

theorem size_multiple (h : ∀ f ∈ l, f.isFactor = true) (q_ne : q ≠ 0) (some_factor : l ≠ []) :
    (multiple q l).size + 1 = coefficientSize q + totalSize l := by
  have product : (sortedProduct l).size + 1 = totalSize l := by
    rw [sortedProduct_eq (atoms h), size_product (sort_ne_nil some_factor),
      totalSize_perm (Sorting.sort_perm le l)]
  have opposite_ne : (-1 : Rat) ≠ 1 := by decide
  obtain ⟨rfl, same⟩ | ⟨rfl, same⟩ | ⟨one_ne, opposite_ne, same⟩ := multiple_cases (isMonic h) q_ne some_factor
  · rw [same, coefficientSize, if_pos rfl, zero_add, product]
  · rw [same, coefficientSize, if_neg opposite_ne, if_pos rfl, size, ← product]
    omega
  · rw [same, coefficientSize, if_neg one_ne, if_neg opposite_ne, size, size, ← product]
    omega

/-- Different products are the terms of a sum, in some order. -/
theorem writtenTerms_perm (distinct : (A.map Prod.fst).Nodup) (nonzero : ∀ entry ∈ A, entry.2 ≠ 0) :
    (writtenTerms A).Perm A := by
  have perm : (Tally.ofList cmpList A).Perm A := ofList_perm distinct
  refine .trans ?_ perm
  rw [writtenTerms, properTerms, constantTerm]
  generalize Tally.ofList cmpList A = t at perm ⊢
  replace nonzero : ∀ entry ∈ t, entry.2 ≠ 0 := fun entry member => nonzero entry (perm.mem_iff.mp member)
  replace distinct : (t.map Prod.fst).Nodup := (perm.map _).nodup_iff.mpr distinct
  have kept (u : LikeTerms) (inside : ∀ entry ∈ u, entry ∈ t) (proper : ∀ entry ∈ u, entry.1 ≠ []) :
      (u.filter fun entry => !entry.1.isEmpty && entry.2 ≠ 0) = u := by
    apply List.filter_eq_self.mpr
    intro entry member
    simp [nonzero entry (inside entry member), proper entry member]
  cases found : Tally.find? [] t with
  | none =>
      rw [kept t (fun _ => id) (ne_of_find?_eq_none found)]
      exact .refl t
  | some c =>
      have member := mem_of_find? found
      obtain ⟨before, after, rfl⟩ := List.append_of_mem member
      have middle : (before ++ ([], c) :: after).Perm (([], c) :: (before ++ after)) := List.perm_middle
      have inside : ∀ entry ∈ before ++ after, entry ∈ before ++ ([], c) :: after :=
        fun entry member => middle.mem_iff.mpr (.tail _ member)
      have proper : ∀ entry ∈ before ++ after, entry.1 ≠ [] := by
        have apart := ((middle.map Prod.fst).nodup_iff.mp distinct)
        intro entry member empty
        exact (List.nodup_cons.mp apart).1 (List.mem_map.mpr ⟨entry, member, empty⟩)
      have rest : ((before ++ ([], c) :: after).filter fun entry => !entry.1.isEmpty && entry.2 ≠ 0) =
          before ++ after := by
        rw [List.filter_append, List.filter_cons_of_neg (by simp), ← List.filter_append,
          kept _ inside proper]
      have c_ne : (some c).getD 0 ≠ 0 := nonzero _ member
      rw [rest, if_neg c_ne]
      exact (List.perm_append_singleton _ _).trans middle.symm

section Distinct
variable (keys : Keyed A) (distinct : (A.map Prod.fst).Nodup) (nonzero : ∀ entry ∈ A, entry.2 ≠ 0)
include keys distinct nonzero

theorem size_collected (some_term : A ≠ []) :
    (collected A).size + 1 = totalSize (A.map fun entry => multiple entry.2 entry.1) := by
  have perm := writtenTerms_perm distinct nonzero
  have proper : writtenTerms A ≠ [] := by
    intro empty
    rw [empty] at perm
    exact some_term perm.symm.eq_nil
  rw [collected_eq_writtenTerms keys.terms, size_sum (by simpa using proper), totalSize_perm (perm.map _)]

theorem exists_add_collected (two : 2 ≤ A.length) : ∃ a b, collected A = add a b := by
  rw [← (writtenTerms_perm distinct nonzero).length_eq] at two
  rw [collected_eq_writtenTerms keys.terms]
  obtain empty | ⟨before, last, listed⟩ := List.eq_nil_or_concat' (writtenTerms A)
  · rw [empty] at two
    cases two
  · rw [listed] at two ⊢
    have some_term : before ≠ [] := by
      rintro rfl
      simp at two
    rw [List.map_append, List.map_singleton, sum_concat (by simpa using some_term)]
    exact ⟨_, _, rfl⟩

theorem length_terms_collected (some_term : A ≠ []) : (collected A).terms.length = A.length := by
  have perm := writtenTerms_perm distinct nonzero
  have single : ∀ entry ∈ writtenTerms A, (multiple entry.2 entry.1).terms.length = 1 := by
    intro entry member
    rw [(keys entry (perm.mem_iff.mp member)).terms_multiple]
    rfl
  rw [collected_eq_writtenTerms keys.terms, ← perm.length_eq]
  generalize writtenTerms A = W at perm single ⊢
  cases W with
  | nil => exact absurd perm.symm.eq_nil some_term
  | cons entry rest =>
      obtain ⟨first, others⟩ := List.forall_mem_cons.mp single
      rw [List.map_cons, sum, terms_foldl_add, List.length_append, first, List.length_flatMap, List.map_map,
        Function.comp_def, List.map_congr_left others]
      simp [add_comm]

end Distinct

end SymbolicAlgebra.Expr
