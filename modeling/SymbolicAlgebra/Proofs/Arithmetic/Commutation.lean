import SymbolicAlgebra.Evaluation
import SymbolicAlgebra.Proofs.Arithmetic.Recursion
import SymbolicAlgebra.Proofs.Expr.ListOrder

/-! Sums and products do not depend on which operand comes first, for operands of any shape.
A sum looks at its operands as one list of terms, and a product as one list of factors; what
a product decides before it does so is decided the same way from both sides. -/

namespace SymbolicAlgebra.Expr

variable {raise : Expr → Expr → Expr} {l m : List Expr}

/-- Like terms are collected whatever the order of the terms. -/
theorem likeTerms_perm (perm : l.Perm m) : likeTerms l = likeTerms m :=
  Tally.ofList_eq_of_perm (perm.filterMap likeTerm?)

theorem plus_comm (x y : Expr) : x.plus y = y.plus x := by
  rw [plus, likeTerms_perm List.perm_append_comm, plus]

theorem asMultiple_mul_comm (x y : Expr) : (mul x y).asMultiple = (mul y x).asMultiple := by
  rw [asMultiple_mul, asMultiple_mul, mul_comm, sortedProduct_perm List.perm_append_comm]

theorem isIndeterminateProduct_comm (x y : Expr) :
    isIndeterminateProduct x y = isIndeterminateProduct y x := by
  simp only [isIndeterminateProduct, Bool.or_assoc, Bool.or_comm, Bool.or_left_comm]

/-- Two operands that are both one are the same. -/
theorem unit_comm (x y product : Expr) :
    (if x.isOne then y else if y.isOne then x else product) =
      if y.isOne then x else if x.isOne then y else product := by
  by_cases left : x.isOne = true
  · by_cases right : y.isOne = true
    · rw [if_pos left, if_pos right, (isOne_iff x).mp left, (isOne_iff y).mp right]
    · rw [if_pos left, if_neg right, if_pos left]
  · rw [if_neg left, if_neg left]

theorem timesPlain_comm (x y : Expr) : timesPlain raise x y = timesPlain raise y x := by
  unfold timesPlain
  rw [isIndeterminateProduct_comm, asMultiple_mul_comm, Bool.or_comm, unit_comm]
  split
  next => rfl
  cases left : x.value? with
  | none => cases right : y.value? <;> rfl
  | some p =>
      cases right : y.value? with
      | none => rfl
      | some q => exact congrArg const (mul_comm p q)

theorem isSum_of_multiplier? {x : Expr} {q : Rat} (h : x.multiplier? = some q) : x.isSum = false := by
  cases x <;> first | rfl | cases h

/-- A number is distributed over a sum on either side. -/
theorem timesWith_comm (x y : Expr) : timesWith raise x y = timesWith raise y x := by
  rw [timesWith, timesWith]
  cases left : if y.isSum then x.multiplier? else none with
  | none =>
      cases right : if x.isSum then y.multiplier? else none with
      | none => exact timesPlain_comm x y
      | some q => rfl
  | some q =>
      have number : x.isSum = false := by
        split at left
        next => exact isSum_of_multiplier? left
        next => cases left
      rw [number]
      rfl

theorem times_comm (x y : Expr) : x.times y = y.times x := by
  rw [times_eq, timesWith_comm, times_eq]

/-- The operands of a sum or a product may be exchanged, before and after they are evaluated. -/
theorem operand_order_does_not_matter (a b : Expr) :
    a.plus b = b.plus a ∧ a.times b = b.times a ∧
      (add a b).evaluate = (add b a).evaluate ∧ (mul a b).evaluate = (mul b a).evaluate := by
  refine ⟨plus_comm a b, times_comm a b, ?_, ?_⟩
  · rw [evaluate, evaluate, plus_comm]
  · rw [evaluate, evaluate, times_comm]

end SymbolicAlgebra.Expr
