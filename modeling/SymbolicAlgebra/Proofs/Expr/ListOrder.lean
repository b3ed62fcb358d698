import SymbolicAlgebra.Expr.TotalOrder

/-! Lists of expressions are totally ordered as well, the first unequal members
deciding; only equal lists compare as equal. -/

namespace SymbolicAlgebra.Expr

theorem eq_of_cmpList {l m : List Expr} (h : cmpList l m = .eq) : l = m := by
  induction l generalizing m with
  | nil =>
      cases m with
      | nil => rfl
      | cons b bs => cases h
  | cons a as ih =>
      cases m with
      | nil => cases h
      | cons b bs =>
          obtain ⟨heads, tails⟩ := Ordering.then_eq_eq.mp h
          rw [eq_of_cmp heads, ih tails]

theorem cmpList_self (l : List Expr) : cmpList l l = .eq := by
  induction l with
  | nil => rfl
  | cons a as ih => exact Ordering.then_eq_eq.mpr ⟨cmp_self a, ih⟩

theorem cmpList_swap (l m : List Expr) : cmpList l m = (cmpList m l).swap := by
  induction l generalizing m with
  | nil => cases m <;> rfl
  | cons a as ih =>
      cases m with
      | nil => rfl
      | cons b bs => exact lex_swap (cmp_swap a b) (ih bs)

theorem cmpList_lt_trans {l m n : List Expr} (h : cmpList l m = .lt) (k : cmpList m n = .lt) :
    cmpList l n = .lt := by
  induction l generalizing m n with
  | nil =>
      cases n with
      | nil => cases m <;> cases k
      | cons c cs => rfl
  | cons a as ih =>
      cases m with
      | nil => cases h
      | cons b bs =>
          cases n with
          | nil => cases k
          | cons c cs =>
              exact lex_lt_trans cmp_lt_trans (fun e => by rw [eq_of_cmp e])
                (fun e => by rw [eq_of_cmp e]) ih h k

instance : Std.LawfulEqCmp cmpList where
  compare_self := cmpList_self _
  eq_of_compare := eq_of_cmpList

instance : Std.TransCmp cmpList where
  eq_swap := cmpList_swap _ _
  isLE_trans h k := by
    rw [Ordering.isLE_iff_eq_lt_or_eq_eq] at *
    rcases h with h | h
    · rcases k with k | k
      · exact .inl (cmpList_lt_trans h k)
      · exact .inl (eq_of_cmpList k ▸ h)
    · exact eq_of_cmpList h ▸ k

end SymbolicAlgebra.Expr
