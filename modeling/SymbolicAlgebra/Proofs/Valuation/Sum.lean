import SymbolicAlgebra.Arithmetic.Sum
import SymbolicAlgebra.Proofs.Collection.Tally
import SymbolicAlgebra.Proofs.Expr.ListOrder
import SymbolicAlgebra.Proofs.Valuation.Factor

/-! Addition adds values. Terms are collected under their sorted factors, so the
value of the like terms is the sum of the coefficients, each weighted by the
product of its key; infinite and indeterminate keys cannot occur among terms
that have values. -/

namespace SymbolicAlgebra.Valuation
open SymbolicAlgebra.Expr

variable {K : Type*} [Field K] [DecidableEq K] {V : Valuation K}
variable {a b e : Expr} {l : List Expr} {x y z : K}

theorem Means.termsWithSign (h : V.Means e x) (negative : Bool) :
    V.MeansSum (e.termsWithSign negative) (if negative then -x else x) := by
  induction e generalizing x negative with
  | add a b iha ihb =>
      obtain ⟨y, z, left, right, rfl⟩ := means_add.mp h
      have both := (iha left negative).append (ihb right negative)
      cases negative <;> simpa [Expr.termsWithSign, add_comm] using both
  | sub a b iha ihb =>
      obtain ⟨y, z, left, right, rfl⟩ := means_sub.mp h
      have both := (iha left negative).append (ihb right !negative)
      cases negative
      · simpa [Expr.termsWithSign, sub_eq_add_neg] using both
      · simpa [Expr.termsWithSign, sub_eq_add_neg, add_comm] using both
  | neg a ih =>
      obtain ⟨y, inner, rfl⟩ := means_neg.mp h
      have turned := ih inner !negative
      cases negative <;> simpa [Expr.termsWithSign] using turned
  | _ =>
      cases negative
      · exact h.meansSum
      · exact h.negate.meansSum

theorem Means.terms (h : V.Means e x) : V.MeansSum e.terms x := h.termsWithSign false

theorem means_sum_foldl (h : V.Means a x) (k : V.MeansSum l y) :
    V.Means (l.foldl Expr.add a) (x + y) := by
  induction l generalizing a x y with
  | nil => simpa [← k.2] using h
  | cons b rest ih =>
      obtain ⟨z, w, second, others, rfl⟩ := meansSum_cons.mp k
      rw [← add_assoc]
      exact ih (h.add second) others

theorem MeansSum.sum (h : V.MeansSum l z) : V.Means (Expr.sum l) z := by
  cases l with
  | nil => exact means_zero.mpr h.2
  | cons a rest =>
      obtain ⟨x, y, first, others, rfl⟩ := meansSum_cons.mp h
      exact means_sum_foldl first others

/-- The product of the factors in a key. -/
def keyValue (V : Valuation K) (key : List Expr) : K := (key.map V.val).prod

structure MeansTally (V : Valuation K) (t : LikeTerms) (x : K) : Prop where
  defined : ∀ entry ∈ t, ∀ e ∈ entry.1, V.Defined e
  total : t.weighted V.keyValue = x

theorem MeansTally.add [CharZero K] {key : List Expr} {t : LikeTerms} (h : V.MeansProduct key x)
    (k : V.MeansTally t y) (q : ℚ) : V.MeansTally (t.add cmpList key q) (q * x + y) := by
  constructor
  · intro entry member
    rcases Tally.key_of_mem_add member with same | ⟨r, present⟩
    · rw [same]
      exact h.1
    · exact k.defined (entry.1, r) present
  · rw [Tally.weighted_add, k.total, keyValue, h.2]

theorem MeansSum.likeTerms [CharZero K] (h : V.MeansSum l z) : V.MeansTally (likeTerms l) z := by
  induction l generalizing z with
  | nil => exact ⟨by simp [Expr.likeTerms, Tally.ofList], h.2⟩
  | cons a rest ih =>
      obtain ⟨x, y, first, others, rfl⟩ := meansSum_cons.mp h
      obtain ⟨w, core, rfl⟩ := first.asMultiple
      by_cases vanishes : a.asMultiple.1 = 0
      · simpa [Expr.likeTerms, likeTerm?, vanishes] using ih others
      · simpa [Expr.likeTerms, likeTerm?, vanishes, Tally.ofList] using
          (ih others).add core.factors.sort a.asMultiple.1

theorem MeansTally.find?_eq_none {t : LikeTerms} (h : V.MeansTally t x) {s : Expr}
    (s_undefined : ¬ V.Defined s) : t.find? [s] = none := by
  have defined := h.defined
  clear h
  induction t with
  | nil => rfl
  | cons head rest ih =>
      obtain ⟨first, others⟩ := List.forall_mem_cons.mp defined
      have different : head.1 ≠ [s] := by
        intro same
        exact s_undefined (first s (by simp [same]))
      rw [Tally.find?, if_neg different]
      exact ih others

/-- The written terms without the constant. -/
theorem MeansTally.meansSum_terms {t : LikeTerms} (h : V.MeansTally t x) :
    V.MeansSum ((t.filter fun entry => !entry.1.isEmpty && entry.2 ≠ 0).map fun entry =>
      scaled entry.2 (product entry.1))
      (Tally.weighted V.keyValue (t.filter fun entry => entry.1 ≠ [])) := by
  have defined := h.defined
  clear h
  induction t with
  | nil => exact meansSum_nil
  | cons head rest ih =>
      obtain ⟨first, others⟩ := List.forall_mem_cons.mp defined
      have tail := ih others
      have key : V.MeansProduct head.1 (V.keyValue head.1) := ⟨first, rfl⟩
      by_cases empty : head.1 = []
      · simpa [empty] using tail
      · by_cases vanishes : head.2 = 0
        · simpa [empty, vanishes] using tail
        · simpa [empty, vanishes] using
            meansSum_cons.mpr ⟨_, _, key.product.scaled head.2, tail, rfl⟩

theorem MeansTally.written {t : LikeTerms} (h : V.MeansTally t x)
    (ascending : Tally.Ascending cmpList t) : V.MeansSum t.written x := by
  have terms := h.meansSum_terms
  have split := h.total.symm.trans (Tally.weighted_filter V.keyValue [] ascending)
  simp only [LikeTerms.written]
  split
  next vanishes =>
    rw [vanishes, Rat.cast_zero, zero_mul, add_zero] at split
    exact split ▸ terms
  next =>
    rw [keyValue, List.map_nil, List.prod_nil, mul_one] at split
    exact split ▸ terms.append (Means.meansSum ((means_const _).mpr rfl))

theorem MeansTally.ofLikeTerms {t : LikeTerms} (h : V.MeansTally t x)
    (ascending : Tally.Ascending cmpList t) : V.Means (ofLikeTerms t) x := by
  have noUndefined := h.find?_eq_none (s := undefined) (fun ⟨_, has⟩ => not_means_undefined has)
  have noInfinity := h.find?_eq_none (s := infinity) (fun ⟨_, has⟩ => not_means_infinity has)
  simpa [Expr.ofLikeTerms, noUndefined, noInfinity] using (h.written ascending).sum

variable [CharZero K]

theorem Means.plus (h : V.Means a x) (k : V.Means b y) : V.Means (a.plus b) (x + y) :=
  (h.terms.append k.terms).likeTerms.ofLikeTerms (Tally.ofList_ascending _)

theorem Means.minus (h : V.Means a x) (k : V.Means b y) : V.Means (a.minus b) (x - y) := by
  rw [sub_eq_add_neg]
  exact h.plus k.negate

end SymbolicAlgebra.Valuation
