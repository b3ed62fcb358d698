import Mathlib.Algebra.Order.Group.Unbundled.Basic
import Mathlib.Algebra.Order.Ring.Rat
import Mathlib.Data.List.Perm.Basic
import SymbolicAlgebra.Arithmetic.Factor
import SymbolicAlgebra.Expr.TotalOrder

/-! Rational multiples of products. A product of factors is taken apart into the same
factors, in order, and a multiple of it into the coefficient and the product, so a
multiple is known by its coefficient and by its factors up to their order. -/

namespace SymbolicAlgebra.Expr

variable {a b e f : Expr} {l m : List Expr} {q : Rat}

theorem le_total (a b : Expr) : a.le b || b.le a := by
  rw [le, le, cmp_swap b a]
  cases a.cmp b <;> rfl

theorem le_trans (a b c : Expr) (h : a.le b) (k : b.le c) : a.le c :=
  Std.TransCmp.isLE_trans h k

theorem eq_of_le_of_le (h : a.le b) (k : b.le a) : a = b := by
  rw [le, cmp_swap] at k
  rw [le] at h
  apply eq_of_cmp
  cases same : a.cmp b <;> simp_all

theorem sort_sorted (l : List Expr) : (Sorting.sort le l).Pairwise fun a b => a.le b :=
  Sorting.sort_sorted le_total le_trans l

/-- Only the members of a list decide what it is sorted to. -/
theorem sort_eq_of_perm (perm : l.Perm m) : Sorting.sort le l = Sorting.sort le m := by
  have perm' := ((Sorting.sort_perm le l).trans perm).trans (Sorting.sort_perm le m).symm
  exact perm'.eq_of_pairwise (fun _ _ _ _ => eq_of_le_of_le) (sort_sorted l) (sort_sorted m)

theorem forall_mem_sort {P : Expr → Prop} (h : ∀ f ∈ l, P f) : ∀ f ∈ Sorting.sort le l, P f :=
  fun f member => h f ((Sorting.mem_sort le f l).mp member)

theorem sort_sort (l : List Expr) : Sorting.sort le (Sorting.sort le l) = Sorting.sort le l :=
  sort_eq_of_perm (Sorting.sort_perm le l)

/-- True for an expression that is one factor of a product and has the coefficient one. -/
def isAtomic : Expr → Bool
  | const _ | mul _ _ | neg _ => false
  | _ => true

/-- True for an expression that products and quotients keep as one factor with the
coefficient one. -/
def isFactor : Expr → Bool
  | const _ | mul _ _ | div _ _ | neg _ | infinity | undefined => false
  | _ => true

theorem isAtomic_of_isFactor (h : e.isFactor = true) : e.isAtomic = true := by
  cases e <;> first | rfl | cases h

theorem atoms (h : ∀ f ∈ l, f.isFactor = true) : ∀ f ∈ l, f.isAtomic = true :=
  fun f member => isAtomic_of_isFactor (h f member)

@[simp] theorem factors_of_isAtomic (h : e.isAtomic = true) : e.factors = [e] := by
  cases e <;> first | rfl | cases h

@[simp] theorem asMultiple_of_isAtomic (h : e.isAtomic = true) : e.asMultiple = (1, e) := by
  cases e <;> first | rfl | cases h

theorem isOne_of_isAtomic (h : e.isAtomic = true) : e.isOne = false := by
  cases e <;> first | rfl | cases h

theorem negate_of_isAtomic (h : e.isAtomic = true) (defined : e ≠ undefined) : e.negate = neg e := by
  cases e <;> first | rfl | exact absurd rfl defined | cases h

theorem negate_of_isFactor (h : e.isFactor = true) : e.negate = neg e := by
  cases e <;> first | rfl | cases h

theorem asMultiple_mul (a b : Expr) : (mul a b).asMultiple =
    (a.asMultiple.1 * b.asMultiple.1,
      sortedProduct (a.asMultiple.2.factors ++ b.asMultiple.2.factors)) := rfl

theorem sortedProduct_perm (perm : l.Perm m) : sortedProduct l = sortedProduct m := by
  rw [sortedProduct, sort_eq_of_perm (perm.filter _), sortedProduct]

@[simp] theorem sortedProduct_nil : sortedProduct [] = one := rfl

@[simp] theorem sortedProduct_singleton (h : f.isAtomic = true) : sortedProduct [f] = f := by
  simp [sortedProduct, isOne_of_isAtomic h, Sorting.sort, Sorting.insert, product]

section Atoms
variable (h : ∀ f ∈ l, f.isAtomic = true)
include h

theorem sortedProduct_eq : sortedProduct l = product (Sorting.sort le l) := by
  rw [sortedProduct, List.filter_eq_self.mpr]
  intro f member
  simp [isOne_of_isAtomic (h f member)]

theorem factors_foldl_mul : (l.foldl mul e).factors = e.factors ++ l := by
  induction l generalizing e with
  | nil => exact (List.append_nil _).symm
  | cons f rest ih =>
      obtain ⟨first, others⟩ := List.forall_mem_cons.mp h
      rw [List.foldl_cons, ih others, factors, factors_of_isAtomic first, List.append_assoc]
      rfl

@[simp] theorem factors_product : (product l).factors = l := by
  cases l with
  | nil => rfl
  | cons f rest =>
      obtain ⟨first, others⟩ := List.forall_mem_cons.mp h
      rw [product, factors_foldl_mul others, factors_of_isAtomic first]
      rfl

@[simp] theorem factors_sortedProduct : (sortedProduct l).factors = Sorting.sort le l := by
  rw [sortedProduct_eq h, factors_product (forall_mem_sort h)]

theorem asMultiple_foldl_mul (k : ∀ f ∈ m, f.isAtomic = true)
    (read : e.asMultiple = (1, sortedProduct m)) :
    (l.foldl mul e).asMultiple = (1, sortedProduct (m ++ l)) := by
  induction l generalizing e m with
  | nil => rw [List.append_nil]; exact read
  | cons f rest ih =>
      obtain ⟨first, others⟩ := List.forall_mem_cons.mp h
      have extended : (mul e f).asMultiple = (1, sortedProduct (m ++ [f])) := by
        rw [asMultiple_mul, read, asMultiple_of_isAtomic first, factors_sortedProduct k,
          factors_of_isAtomic first, mul_one]
        exact congrArg (Prod.mk 1) (sortedProduct_perm ((Sorting.sort_perm le m).append_right [f]))
      rw [List.foldl_cons, ih others _ extended, List.append_assoc]
      · rfl
      · exact List.forall_mem_append.mpr ⟨k, List.forall_mem_singleton.mpr first⟩

theorem asMultiple_product : (product l).asMultiple = (1, sortedProduct l) := by
  cases l with
  | nil => rfl
  | cons f rest =>
      obtain ⟨first, others⟩ := List.forall_mem_cons.mp h
      apply asMultiple_foldl_mul others (List.forall_mem_singleton.mpr first)
      rw [asMultiple_of_isAtomic first, sortedProduct_singleton first]

@[simp] theorem asMultiple_sortedProduct : (sortedProduct l).asMultiple = (1, sortedProduct l) := by
  rw [sortedProduct_eq h, asMultiple_product (forall_mem_sort h),
    sortedProduct_perm (Sorting.sort_perm le l), sortedProduct_eq h]

end Atoms

/-- A term without its coefficient is a product of atoms in order. -/
theorem exists_atoms (e : Expr) :
    ∃ l, (∀ f ∈ l, f.isAtomic = true) ∧ e.asMultiple.2 = sortedProduct l := by
  induction e with
  | const q => exact ⟨[], List.forall_mem_nil _, rfl⟩
  | neg a ih => exact ih
  | mul a b left right =>
      obtain ⟨l, atoms, same⟩ := left
      obtain ⟨m, atoms', same'⟩ := right
      refine ⟨Sorting.sort le l ++ Sorting.sort le m,
        List.forall_mem_append.mpr ⟨forall_mem_sort atoms, forall_mem_sort atoms'⟩, ?_⟩
      rw [asMultiple_mul, same, same', factors_sortedProduct atoms, factors_sortedProduct atoms']
  | _ => exact ⟨[_], List.forall_mem_singleton.mpr rfl, (sortedProduct_singleton rfl).symm⟩

theorem isAtomic_of_mem_asMultiple (e : Expr) : ∀ f ∈ e.asMultiple.2.factors, f.isAtomic = true := by
  obtain ⟨l, atoms, same⟩ := exists_atoms e
  rw [same, factors_sortedProduct atoms]
  exact forall_mem_sort atoms

theorem negate_foldl_mul (notConst : e.value? = none) (opposite : e.negate = neg e) :
    (l.foldl mul e).negate = neg (l.foldl mul e) := by
  induction l generalizing e with
  | nil => exact opposite
  | cons f rest ih =>
      refine ih rfl ?_
      cases e <;> first | rfl | cases notConst

theorem negate_product (h : ∀ f ∈ l, f.isAtomic = true) (some_factor : l ≠ [])
    (defined : l ≠ [undefined]) : (product l).negate = neg (product l) := by
  match l with
  | [] => exact absurd rfl some_factor
  | [f] =>
      refine negate_of_isAtomic (h f (List.mem_singleton_self f)) ?_
      rintro rfl
      exact defined rfl
  | f :: g :: rest =>
      have first := (List.forall_mem_cons.mp h).1
      refine negate_foldl_mul (e := mul f g) (l := rest) rfl ?_
      cases f <;> first | rfl | cases first

theorem value?_foldl_mul (notConst : e.value? = none) : (l.foldl mul e).value? = none := by
  induction l generalizing e with
  | nil => exact notConst
  | cons f rest ih => exact ih rfl

theorem value?_product (h : ∀ f ∈ l, f.isAtomic = true) (some_factor : l ≠ []) :
    (product l).value? = none := by
  cases l with
  | nil => exact absurd rfl some_factor
  | cons f rest =>
      have first := (List.forall_mem_cons.mp h).1
      refine value?_foldl_mul ?_
      cases f <;> first | rfl | cases first

theorem isOne_of_value? (h : e.value? = none) : e.isOne = false := by
  cases e <;> first | rfl | cases h

/-- A rational multiple of the product of a list, whatever the order of the list. -/
def multiple (q : Rat) (l : List Expr) : Expr := scaled q (sortedProduct l)

theorem multiple_perm (perm : l.Perm m) : multiple q l = multiple q m := by
  rw [multiple, sortedProduct_perm perm, multiple]

@[simp] theorem multiple_zero (l : List Expr) : multiple 0 l = zero := rfl

@[simp] theorem multiple_nil (q : Rat) : multiple q [] = const q := by
  rw [multiple, scaled, scaledWith]
  split
  next vanishes => rw [vanishes]; rfl
  next => rfl

theorem sort_ne_nil (some_factor : l ≠ []) : Sorting.sort le l ≠ [] := by
  intro empty
  have length := (Sorting.sort_perm le l).length_eq
  rw [empty] at length
  exact some_factor (List.length_eq_zero_iff.mp length.symm)

/-- Lists of factors whose product has the coefficient one and an opposite. -/
structure IsMonic (l : List Expr) : Prop where
  atoms : ∀ f ∈ l, f.isAtomic = true
  defined : l ≠ [undefined]

theorem ne_singleton (h : ∀ f ∈ l, f.isFactor = true) (other : e.isFactor = false) : l ≠ [e] := by
  rintro rfl
  rw [h e (List.mem_singleton_self e)] at other
  cases other

theorem isMonic (h : ∀ f ∈ l, f.isFactor = true) : IsMonic l where
  atoms := atoms h
  defined := ne_singleton h rfl

theorem IsMonic.sort (h : IsMonic l) : IsMonic (Sorting.sort le l) where
  atoms := forall_mem_sort h.atoms
  defined := by
    intro same
    have perm := Sorting.sort_perm le l
    rw [same] at perm
    exact h.defined (List.singleton_perm.mp perm).symm

section Multiple
variable (h : IsMonic l)
include h

theorem value?_sortedProduct (some_factor : l ≠ []) : (sortedProduct l).value? = none := by
  rw [sortedProduct_eq h.atoms]
  exact value?_product h.sort.atoms (sort_ne_nil some_factor)

theorem negate_sortedProduct (some_factor : l ≠ []) :
    (sortedProduct l).negate = neg (sortedProduct l) := by
  rw [sortedProduct_eq h.atoms]
  exact negate_product h.sort.atoms (sort_ne_nil some_factor) h.sort.defined

/-- The four shapes of a multiple. -/
theorem multiple_cases (q_ne : q ≠ 0) (some_factor : l ≠ []) :
    q = 1 ∧ multiple q l = sortedProduct l ∨ q = -1 ∧ multiple q l = neg (sortedProduct l) ∨
      q ≠ 1 ∧ q ≠ -1 ∧ multiple q l = mul (const q) (sortedProduct l) := by
  have notOne := isOne_of_value? (value?_sortedProduct h some_factor)
  rw [multiple, scaled, scaledWith, if_neg q_ne, notOne, if_neg Bool.false_ne_true]
  split
  next one => exact .inl ⟨one, rfl⟩
  next one_ne =>
    split
    next opposite => exact .inr (.inl ⟨opposite, negate_sortedProduct h some_factor⟩)
    next opposite_ne => exact .inr (.inr ⟨one_ne, opposite_ne, rfl⟩)

theorem multiple_one : multiple 1 l = sortedProduct l := by
  by_cases some_factor : l = []
  · rw [some_factor, multiple_nil]; rfl
  · obtain ⟨-, same⟩ | ⟨opposite, -⟩ | ⟨ne, -⟩ := multiple_cases h one_ne_zero some_factor
    · exact same
    · exact absurd opposite (by decide)
    · exact absurd rfl ne

omit h in
theorem multiple_one_singleton (h : f.isFactor = true) : multiple 1 [f] = f := by
  rw [multiple_one (isMonic (List.forall_mem_singleton.mpr h)),
    sortedProduct_singleton (isAtomic_of_isFactor h)]

@[simp] theorem asMultiple_multiple (q_ne : q ≠ 0) :
    (multiple q l).asMultiple = (q, sortedProduct l) := by
  by_cases some_factor : l = []
  · subst some_factor
    rw [multiple_nil]
    rfl
  · have read := asMultiple_sortedProduct h.atoms
    obtain ⟨rfl, same⟩ | ⟨rfl, same⟩ | ⟨-, -, same⟩ := multiple_cases h q_ne some_factor
    · rw [same, read]
    · rw [same, asMultiple, read]
    · rw [same, asMultiple_mul, read, factors_sortedProduct h.atoms]
      rw [show (const q).asMultiple = (q, one) from rfl, mul_one]
      exact congrArg (Prod.mk q) (sortedProduct_perm (Sorting.sort_perm le l))

@[simp] theorem negate_multiple : (multiple q l).negate = multiple (-q) l := by
  by_cases vanishes : q = 0
  · subst vanishes
    simp [zero, negate]
  · by_cases some_factor : l = []
    · subst some_factor
      simp [negate]
    · have opposite := negate_sortedProduct h some_factor
      obtain ⟨rfl, same⟩ | ⟨rfl, same⟩ | ⟨-, -, same⟩ := multiple_cases h vanishes some_factor
      · obtain ⟨one, -⟩ | ⟨-, shape⟩ | ⟨-, ne, -⟩ :=
          multiple_cases h (neg_ne_zero.mpr one_ne_zero) some_factor
        · exact absurd one (by decide)
        · rw [same, shape, opposite]
        · exact absurd rfl ne
      · rw [same, neg_neg, multiple_one h, negate]
      · rw [same, negate_mul_const, multiple]

end Multiple
end SymbolicAlgebra.Expr
