import Mathlib.Tactic.LinearCombination
import SymbolicAlgebra.Proofs.Identity.Trigonometric
import SymbolicAlgebra.Proofs.Valuation.Sum

/-! The identities of heads and the two trigonometric identities keep values. A
joined pair of terms is replaced by one term with the sum of their values. -/

namespace SymbolicAlgebra.Valuation
open SymbolicAlgebra.Expr

variable {K : Type*} [Field K] [DecidableEq K] {V : Valuation K}
variable {a b e : Expr} {l : List Expr} {f : Fn} {x y z : K}

theorem Means.absolute (h : V.Means (.app .abs a) x) : V.Means a.absolute x := by
  obtain ⟨y, arg, has⟩ := (means_app .abs).mp h
  induction a generalizing x y with
  | const q =>
      rw [means_const] at arg
      subst arg
      rw [V.abs_rational has]
      refine (means_const _).mpr (congrArg _ ?_)
      split
      next negative => exact (abs_of_neg negative).symm
      next nonneg => exact (abs_of_nonneg (not_lt.mp nonneg)).symm
  | neg a ih =>
      obtain ⟨z, inner, rfl⟩ := means_neg.mp arg
      have has := V.abs_neg has
      exact ih (inner.app has) z inner has
  | pi =>
      rw [means_pi] at arg
      subst arg
      exact means_pi.mpr (V.abs_pi has).symm
  | infinity => exact absurd arg not_means_infinity
  | undefined => exact absurd arg not_means_undefined
  | app g a _ =>
      by_cases positive : g = .exp ∨ g = .abs
      · obtain ⟨z, inner, hasInner⟩ := (means_app g).mp arg
        have same := V.abs_positive positive hasInner has
        rcases positive with rfl | rfl <;> exact same ▸ arg
      · cases g <;> first | exact h | simp at positive
  | _ => exact h

theorem valueAt?_cases {q : ℚ} (h : valueAt? f a = some q) :
    a = zero ∧ f ∈ Fn.vanishingAtZero ∧ q = 0 ∨ a = zero ∧ f ∈ Fn.unitAtZero ∧ q = 1 ∨
      a = one ∧ (f = .acos ∨ f = .log) ∧ q = 0 ∨ a = pi ∧ (f = .sin ∨ f = .tan) ∧ q = 0 ∨
        a = pi ∧ f = .cos ∧ q = -1 := by
  cases f <;> simp only [valueAt?, isZero_iff, isOne_iff] at h <;>
    simp only [Fn.vanishingAtZero, Fn.unitAtZero] <;> grind

theorem eq_of_valueAt? {q : ℚ} (h : V.Means (.app f a) x) (found : valueAt? f a = some q) :
    q = x := by
  obtain ⟨y, arg, has⟩ := (means_app f).mp h
  rcases valueAt?_cases found with
    ⟨rfl, head, rfl⟩ | ⟨rfl, head, rfl⟩ | ⟨rfl, head, rfl⟩ | ⟨rfl, head, rfl⟩ | ⟨rfl, rfl, rfl⟩
  · rw [← means_zero.mp arg] at has
    simp [V.zero_at_zero head has]
  · rw [← means_zero.mp arg] at has
    simp [V.one_at_zero head has]
  · rw [← means_one.mp arg] at has
    simp [V.zero_at_one head has]
  · rw [← means_pi.mp arg] at has
    simp [V.zero_at_pi head has]
  · rw [← means_pi.mp arg] at has
    simp [V.cos_pi has]

theorem exists_of_cancelInverse? {u : Expr} (h : cancelInverse? f a = some u) :
    ∃ g, (f, g) ∈ Fn.inversePairs ∧ a = .app g u := by
  unfold cancelInverse? at h
  split at h
  all_goals first
    | cases h; done
    | obtain rfl := Option.some.inj h
      exact ⟨_, by decide, rfl⟩

theorem Means.applySigned (h : V.Means (.app f a) x) : V.Means (applySigned f a) x := by
  cases a with
  | neg a =>
      obtain ⟨y, arg, has⟩ := (means_app f).mp h
      obtain ⟨z, inner, rfl⟩ := means_neg.mp arg
      simp only [Expr.applySigned]
      split
      next odd => simpa using (inner.app (V.odd odd has)).negate
      next even => exact inner.app (V.even even has)
      next => exact h
  | _ => exact h

theorem Means.apply (h : V.Means (.app f a) x) : V.Means (apply f a) x := by
  rw [Expr.apply]
  split
  next isAbs =>
    subst isAbs
    exact h.absolute
  split
  next isUndefined =>
    obtain ⟨y, arg, -⟩ := (means_app f).mp h
    exact absurd (isUndefined ▸ arg) not_means_undefined
  split
  next found => exact (means_const _).mpr (eq_of_valueAt? h found)
  next u _ found =>
    obtain ⟨g, inverse, rfl⟩ := exists_of_cancelInverse? found
    obtain ⟨y, arg, has⟩ := (means_app f).mp h
    obtain ⟨z, inner, hasInner⟩ := (means_app g).mp arg
    exact V.inverse inverse hasInner has ▸ inner
  next => exact h.applySigned

theorem meansProduct_pair {u v : Expr} (h : V.MeansProduct ([.app f u, .app f v] ++ l) z) :
    ∃ x y s t r, V.Means u x ∧ V.Means v y ∧ V.head f x = some s ∧ V.head f y = some t ∧
      V.MeansProduct l r ∧ s * (t * r) = z := by
  obtain ⟨s, w, first, tail, rfl⟩ := meansProduct_cons.mp h
  obtain ⟨t, r, second, others, rfl⟩ := meansProduct_cons.mp tail
  obtain ⟨x, left, hasLeft⟩ := (means_app f).mp first
  obtain ⟨y, right, hasRight⟩ := (means_app f).mp second
  exact ⟨x, y, s, t, r, left, right, hasLeft, hasRight, others, rfl⟩

variable [CharZero K]

theorem Means.squaredTerm (h : V.Means e x) {t : SquaredTerm}
    (found : SquaredTerm.ofTerm? e = some t) :
    ∃ u s r, V.Means t.arg u ∧ V.head t.head u = some s ∧ V.MeansProduct t.rest r ∧
      t.coeff * (s ^ 2 * r) = x := by
  obtain ⟨y, core, rfl⟩ := h.asMultiple
  obtain ⟨perm, -, coeff⟩ := SquaredTerm.ofTerm?_eq_some found
  obtain ⟨w, r, square, others, rfl⟩ := meansProduct_cons.mp (core.factors.perm perm)
  obtain ⟨s, two, base, exponent, has⟩ := means_pow.mp square
  obtain ⟨u, inner, hasInner⟩ := (means_app t.head).mp base
  have squared := V.power_nat s 2
  rw [means_const] at exponent
  rw [← exponent, Rat.cast_ofNat, ← Nat.cast_ofNat, squared] at has
  exact ⟨u, s, r, inner, hasInner, others, by rw [coeff, Option.some.inj has]⟩

theorem means_joinSquares {j : Expr} (h : V.Means a x) (k : V.Means b y)
    (joined : SquaredTerm.join? (SquaredTerm.ofTerm? a) (SquaredTerm.ofTerm? b) = some j) :
    V.Means j (x + y) := by
  obtain ⟨s, t, left, right, heads, coeffs, args, rests, rfl⟩ := SquaredTerm.join?_eq_some joined
  obtain ⟨u, p, r, arg, hasLeft, rest, rfl⟩ := h.squaredTerm left
  obtain ⟨u', q, r', arg', hasRight, rest', rfl⟩ := k.squaredTerm right
  rw [← args] at arg'
  rw [← rests] at rest'
  rw [← arg.unique arg'] at hasRight
  obtain ⟨-, hs, -⟩ := SquaredTerm.ofTerm?_eq_some left
  obtain ⟨-, ht, -⟩ := SquaredTerm.ofTerm?_eq_some right
  have pythagoras : p ^ 2 + q ^ 2 = 1 := by
    rcases hs with hs | hs <;> rcases ht with ht | ht
    · exact absurd (hs.trans ht.symm) heads
    · exact V.sin_sq_add_cos_sq (hs ▸ hasLeft) (ht ▸ hasRight)
    · rw [add_comm]
      exact V.sin_sq_add_cos_sq (ht ▸ hasRight) (hs ▸ hasLeft)
    · exact absurd (hs.trans ht.symm) heads
  have total : s.coeff * (p ^ 2 * r) + t.coeff * (q ^ 2 * r') = (s.coeff : K) * r := by
    rw [← coeffs, ← rest'.2, rest.2]
    linear_combination (s.coeff : K) * r * pythagoras
  rw [total]
  exact rest.product.scaled s.coeff

theorem Means.angleTerm (h : V.Means e x) : ∃ y,
    V.MeansProduct (AngleTerm.ofTerm e).factors y ∧ (AngleTerm.ofTerm e).coeff * y = x := by
  obtain ⟨y, core, total⟩ := h.asMultiple
  exact ⟨y, core.factors.perm (AngleTerm.ofTerm_perm e), total⟩

theorem means_difference {j : Expr} (h : V.Means a x) (k : V.Means b y)
    (joined : AngleTerm.difference? (AngleTerm.ofTerm a) (AngleTerm.ofTerm b) = some j) :
    V.Means j (x + y) := by
  obtain ⟨p, left, rfl⟩ := h.angleTerm
  obtain ⟨q, right, rfl⟩ := k.angleTerm
  generalize AngleTerm.ofTerm a = s at *
  generalize AngleTerm.ofTerm b = c at *
  obtain ⟨u, v, sines, cosines, coeffs, rfl⟩ := AngleTerm.difference?_eq_some joined
  rw [sines] at left
  rw [cosines] at right
  obtain ⟨m, n, sm, sn, r, first, second, hasSm, hasSn, rest, rfl⟩ := meansProduct_pair left
  obtain ⟨m', n', cm, cn, r', first', second', hasCm, hasCn, rest', rfl⟩ := meansProduct_pair right
  rw [← first.unique first'] at hasCm
  rw [← second.unique second'] at hasCn
  have cosine : V.Means (.app .cos (.sub u v)) (sm * sn + cm * cn) :=
    (first.sub second).app (V.cos_sub hasSm hasSn hasCm hasCn)
  have total : s.coeff * (sm * (sn * r)) + c.coeff * (cm * (cn * r')) =
      (s.coeff : K) * (r * (sm * sn + cm * cn)) := by
    rw [← coeffs, ← rest'.2, rest.2]
    ring
  rw [total]
  apply Means.scaled
  split
  next one =>
    have core := rest.product
    rw [(isOne_iff _).mp one, means_one] at core
    rwa [← core, one_mul]
  next => exact rest.product.mul cosine

theorem means_joinAngles {j : Expr} (h : V.Means a x) (k : V.Means b y)
    (joined : AngleTerm.join? (AngleTerm.ofTerm a) (AngleTerm.ofTerm b) = some j) :
    V.Means j (x + y) := by
  rw [AngleTerm.join?] at joined
  rcases Option.or_eq_some_iff.mp joined with found | ⟨-, found⟩
  · exact means_difference h k found
  · rw [add_comm]
    exact means_difference k h found

/-- A pair of terms is replaced by a term with the sum of their values. -/
theorem MeansSum.joinTerms (h : V.MeansSum l z) {j : Expr} {others : List Expr}
    (joined : joinTerms? l = some (j, others)) : V.MeansSum (j :: others) z := by
  obtain ⟨a, b, perm, pair⟩ := joinTerms?_eq_some joined
  obtain ⟨x, w, first, tail, rfl⟩ := meansSum_cons.mp (h.perm perm)
  obtain ⟨y, r, second, remaining, rfl⟩ := meansSum_cons.mp tail
  have sum : V.Means j (x + y) := by
    rcases pair with squares | angles
    · exact means_joinSquares first second squares
    · exact means_joinAngles first second angles
  exact meansSum_cons.mpr ⟨x + y, r, sum, remaining, add_assoc x y r⟩

end SymbolicAlgebra.Valuation
