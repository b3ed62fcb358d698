import SymbolicAlgebra.Arithmetic.Factor
import SymbolicAlgebra.Proofs.Valuation

/-! Values of lists of factors and of terms, and of the products that are taken
apart and put together from them. A list has a product or a sum when each of
its members has a value; the order of the members does not matter. -/

namespace SymbolicAlgebra.Valuation
open SymbolicAlgebra.Expr

variable {K : Type*} [Field K] [DecidableEq K] {V : Valuation K}
variable {a b e : Expr} {l m : List Expr} {x y z : K}

def MeansProduct (V : Valuation K) (l : List Expr) (x : K) : Prop :=
  (∀ e ∈ l, V.Defined e) ∧ (l.map V.val).prod = x

def MeansSum (V : Valuation K) (l : List Expr) (x : K) : Prop :=
  (∀ e ∈ l, V.Defined e) ∧ (l.map V.val).sum = x

theorem meansProduct_nil : V.MeansProduct [] 1 := ⟨by simp, rfl⟩

theorem meansSum_nil : V.MeansSum [] 0 := ⟨by simp, rfl⟩

theorem meansProduct_cons :
    V.MeansProduct (a :: l) z ↔ ∃ x y, V.Means a x ∧ V.MeansProduct l y ∧ x * y = z := by
  constructor
  · rintro ⟨defined, rfl⟩
    obtain ⟨first, others⟩ := List.forall_mem_cons.mp defined
    exact ⟨_, _, first.means, ⟨others, rfl⟩, rfl⟩
  · rintro ⟨x, y, first, ⟨others, rfl⟩, rfl⟩
    exact ⟨List.forall_mem_cons.mpr ⟨first.defined, others⟩, by simp [first.val]⟩

theorem meansSum_cons :
    V.MeansSum (a :: l) z ↔ ∃ x y, V.Means a x ∧ V.MeansSum l y ∧ x + y = z := by
  constructor
  · rintro ⟨defined, rfl⟩
    obtain ⟨first, others⟩ := List.forall_mem_cons.mp defined
    exact ⟨_, _, first.means, ⟨others, rfl⟩, rfl⟩
  · rintro ⟨x, y, first, ⟨others, rfl⟩, rfl⟩
    exact ⟨List.forall_mem_cons.mpr ⟨first.defined, others⟩, by simp [first.val]⟩

theorem Means.meansProduct (h : V.Means a x) : V.MeansProduct [a] x :=
  meansProduct_cons.mpr ⟨x, 1, h, meansProduct_nil, mul_one x⟩

theorem MeansProduct.means (h : V.MeansProduct [a] x) : V.Means a x := by
  obtain ⟨y, z, member, ⟨-, empty⟩, rfl⟩ := meansProduct_cons.mp h
  have one : z = 1 := empty.symm
  rwa [one, mul_one]

theorem Means.meansSum (h : V.Means a x) : V.MeansSum [a] x :=
  meansSum_cons.mpr ⟨x, 0, h, meansSum_nil, add_zero x⟩

theorem meansProduct_append :
    V.MeansProduct (l ++ m) z ↔ ∃ x y, V.MeansProduct l x ∧ V.MeansProduct m y ∧ x * y = z := by
  constructor
  · rintro ⟨defined, rfl⟩
    obtain ⟨left, right⟩ := List.forall_mem_append.mp defined
    exact ⟨_, _, ⟨left, rfl⟩, ⟨right, rfl⟩, by simp⟩
  · rintro ⟨x, y, ⟨left, rfl⟩, ⟨right, rfl⟩, rfl⟩
    exact ⟨List.forall_mem_append.mpr ⟨left, right⟩, by simp⟩

theorem MeansProduct.append (h : V.MeansProduct l x) (k : V.MeansProduct m y) :
    V.MeansProduct (l ++ m) (x * y) :=
  meansProduct_append.mpr ⟨x, y, h, k, rfl⟩

theorem MeansSum.append (h : V.MeansSum l x) (k : V.MeansSum m y) :
    V.MeansSum (l ++ m) (x + y) := by
  obtain ⟨left, rfl⟩ := h
  obtain ⟨right, rfl⟩ := k
  exact ⟨List.forall_mem_append.mpr ⟨left, right⟩, by simp⟩

theorem MeansProduct.perm (h : V.MeansProduct l x) (perm : l.Perm m) : V.MeansProduct m x := by
  obtain ⟨defined, rfl⟩ := h
  exact ⟨fun e member => defined e (perm.mem_iff.mpr member), (perm.map _).symm.prod_eq⟩

theorem MeansSum.perm (h : V.MeansSum l x) (perm : l.Perm m) : V.MeansSum m x := by
  obtain ⟨defined, rfl⟩ := h
  exact ⟨fun e member => defined e (perm.mem_iff.mpr member), (perm.map _).symm.sum_eq⟩

theorem MeansProduct.sort (h : V.MeansProduct l x) : V.MeansProduct (Sorting.sort le l) x :=
  h.perm (Sorting.sort_perm le l).symm

/-- A product may be taken in two parts, as a Boolean test parts its factors. -/
theorem MeansProduct.partition (h : V.MeansProduct l z) (p : Expr → Bool) :
    ∃ x y, V.MeansProduct (l.filter p) x ∧ V.MeansProduct (l.filter fun e => !p e) y ∧
      x * y = z :=
  meansProduct_append.mp (h.perm (List.filter_append_perm p l).symm)

theorem MeansProduct.withoutOnes (h : V.MeansProduct l z) :
    V.MeansProduct (l.filter fun e => !e.isOne) z := by
  obtain ⟨x, y, ⟨-, ones⟩, others, rfl⟩ := h.partition isOne
  have x_one : x = 1 := by
    rw [← ones]
    apply List.prod_eq_one
    intro r member
    obtain ⟨e, kept, rfl⟩ := List.mem_map.mp member
    obtain ⟨-, isOne⟩ := List.mem_filter.mp kept
    rw [(isOne_iff e).mp isOne]
    exact Means.val (means_one.mpr rfl)
  rwa [x_one, one_mul]

theorem Means.factors (h : V.Means e x) : V.MeansProduct e.factors x := by
  induction e generalizing x with
  | mul a b iha ihb =>
      obtain ⟨y, z, left, right, rfl⟩ := means_mul.mp h
      exact (iha left).append (ihb right)
  | const q =>
      simp only [Expr.factors]
      split
      next one =>
        rw [(isOne_iff _).mp one, means_one] at h
        exact h ▸ meansProduct_nil
      next => exact h.meansProduct
  | _ => exact h.meansProduct

theorem means_product_foldl (h : V.Means a x) (k : V.MeansProduct l y) :
    V.Means (l.foldl Expr.mul a) (x * y) := by
  induction l generalizing a x y with
  | nil => simpa [← k.2] using h
  | cons b rest ih =>
      obtain ⟨z, w, second, others, rfl⟩ := meansProduct_cons.mp k
      rw [← mul_assoc]
      exact ih (h.mul second) others

theorem MeansProduct.product (h : V.MeansProduct l z) : V.Means (Expr.product l) z := by
  cases l with
  | nil => exact means_one.mpr h.2
  | cons a rest =>
      obtain ⟨x, y, first, others, rfl⟩ := meansProduct_cons.mp h
      exact means_product_foldl first others

theorem MeansProduct.sortedProduct (h : V.MeansProduct l z) : V.Means (sortedProduct l) z :=
  h.withoutOnes.sort.product

theorem Means.asMultiple [CharZero K] (h : V.Means e x) :
    ∃ y, V.Means e.asMultiple.2 y ∧ e.asMultiple.1 * y = x := by
  induction e generalizing x with
  | const q => exact ⟨1, means_one.mpr rfl, by simpa [Expr.asMultiple] using h⟩
  | neg a ih =>
      obtain ⟨y, inner, rfl⟩ := means_neg.mp h
      obtain ⟨z, rest, rfl⟩ := ih inner
      exact ⟨z, rest, by simp [Expr.asMultiple]⟩
  | mul a b iha ihb =>
      obtain ⟨y, z, left, right, rfl⟩ := means_mul.mp h
      obtain ⟨s, restLeft, rfl⟩ := iha left
      obtain ⟨t, restRight, rfl⟩ := ihb right
      refine ⟨s * t, (restLeft.factors.append restRight.factors).sortedProduct, ?_⟩
      simp only [Expr.asMultiple, Rat.cast_mul]
      ring
  | _ => exact ⟨x, h, by simp [Expr.asMultiple]⟩

theorem means_scaledWith {negated : Expr} (q : ℚ) (opposite : V.Means negated (-x))
    (h : V.Means e x) : V.Means (scaledWith negated q e) (q * x) := by
  rw [scaledWith]
  split
  next q_zero => simp [q_zero]
  split
  next one =>
    rw [(isOne_iff e).mp one, means_one] at h
    simp [← h]
  split
  next q_one => simpa [q_one] using h
  split
  next q_neg => simpa [q_neg] using opposite
  next => exact Means.mul ((means_const q).mpr rfl) h

theorem Means.negate (h : V.Means e x) : V.Means e.negate (-x) := by
  induction e generalizing x with
  | const q =>
      rw [means_const] at h
      simp [Expr.negate, h]
  | neg a ih =>
      obtain ⟨y, inner, rfl⟩ := means_neg.mp h
      simpa [Expr.negate] using inner
  | undefined => exact absurd h not_means_undefined
  | mul a b iha ihb =>
      cases a with
      | const q =>
          obtain ⟨y, z, left, right, rfl⟩ := means_mul.mp h
          rw [means_const] at left
          have scaled := means_scaledWith (-q) (ihb right) right
          simpa [Expr.negate, left] using scaled
      | _ => exact h.neg
  | _ => exact h.neg

theorem Means.scaled (q : ℚ) (h : V.Means e x) : V.Means (scaled q e) (q * x) :=
  means_scaledWith q h.negate h

end SymbolicAlgebra.Valuation
