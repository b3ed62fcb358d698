import SymbolicAlgebra.Proofs.Arithmetic.Commutation
import SymbolicAlgebra.Proofs.Arithmetic.Power

/-! Products of rational multiples of powers. The coefficients are multiplied and the
exponents of equal bases added, wherever the factors stand; a power that comes to
the exponent zero is dropped. Only a number times a sum is another matter, as it is
distributed. -/

namespace SymbolicAlgebra.Expr

variable {b e f x y : Expr} {l m items : List Expr} {q r : Rat}

theorem value?_of_isFactor (h : f.isFactor = true) : f.value? = none := by
  cases f <;> first | rfl | cases h

/-- The raised powers of a product: the factors that are no numbers, and the product of
those that are. -/
theorem productOfPowers_eq {raise : Expr → Expr → Expr} {C : List Rat}
    (h : ∀ f ∈ l, f.isFactor = true)
    (raised : ((joinedPowers items).map fun p => raise p.1 p.2).Perm (l ++ C.map const)) :
    productOfPowers raise items = (C.prod, sortedProduct l) := by
  have numbers : (l ++ C.map const).filterMap value? = C := by
    have none_of_factors : l.filterMap value? = [] := by
      apply List.filterMap_eq_nil_iff.mpr
      exact fun f member => value?_of_isFactor (h f member)
    rw [List.filterMap_append, none_of_factors, List.filterMap_map]
    exact List.filterMap_some
  have others : ((l ++ C.map const).filter fun e => e.value?.isNone).flatMap factors = l := by
    have constants : (C.map const).filter (fun e => e.value?.isNone) = [] := by
      simp [List.filter_eq_nil_iff, value?]
    have kept : (l.filter fun e => e.value?.isNone) = l := by
      apply List.filter_eq_self.mpr
      intro f member
      rw [value?_of_isFactor (h f member)]
      rfl
    rw [List.filter_append, constants, List.append_nil, kept]
    clear raised numbers kept
    induction l with
    | nil => rfl
    | cons f rest ih =>
        obtain ⟨first, others⟩ := List.forall_mem_cons.mp h
        rw [List.flatMap_cons, factors_of_isAtomic (isAtomic_of_isFactor first), ih others]
        rfl
  refine Prod.ext ?_ ?_
  · change ((_ : List Expr).filterMap value?).prod = _
    rw [(raised.filterMap value?).prod_eq, numbers]
  · change sortedProduct _ = sortedProduct l
    rw [sortedProduct_perm ((raised.filter _).flatMap_right factors), others]

/-- Expressions whose product with zero is zero. -/
structure IsFinite (e : Expr) : Prop where
  defined : e ≠ undefined
  finite : e.hasInfiniteFactor = false

theorem IsFinite.determinate (h : IsFinite x) (k : IsFinite y) : isIndeterminateProduct x y = false := by
  simp [isIndeterminateProduct, h.defined, k.defined, h.finite, k.finite]

section Multiple
variable (h : ∀ f ∈ l, f.isFactor = true)
include h

theorem sortedProduct_ne_infinity : sortedProduct l ≠ infinity := by
  intro same
  have listed := factors_sortedProduct (atoms h)
  rw [same] at listed
  have member : infinity ∈ Sorting.sort le l := listed ▸ List.mem_singleton_self _
  cases forall_mem_sort h _ member

theorem multiple_ne_undefined (q : Rat) : multiple q l ≠ undefined := by
  by_cases vanishes : q = 0
  · rw [vanishes]
    nofun
  · intro same
    have read := asMultiple_multiple (isMonic h) vanishes
    rw [same] at read
    have listed := factors_sortedProduct (atoms h)
    rw [← (Prod.mk.inj read).2] at listed
    have member : undefined ∈ Sorting.sort le l := listed ▸ List.mem_singleton_self _
    cases forall_mem_sort h _ member

theorem hasInfiniteFactor_multiple (q : Rat) : (multiple q l).hasInfiniteFactor = false := by
  have finite : ∀ f ∈ (sortedProduct l).factors, ¬ (f = infinity ∨ f = neg infinity) := by
    rw [factors_sortedProduct (atoms h)]
    rintro f member (rfl | rfl) <;> cases forall_mem_sort h _ member
  by_cases some_factor : l = []
  · rw [some_factor, multiple_nil]
    change (if (const q).isOne then [] else [const q]).any _ = false
    split <;> rfl
  by_cases vanishes : q = 0
  · rw [vanishes]
    rfl
  rw [hasInfiniteFactor, List.any_eq_false]
  obtain ⟨-, same⟩ | ⟨-, same⟩ | ⟨one_ne, -, same⟩ := multiple_cases (isMonic h) vanishes some_factor
  · rw [same]
    simpa using finite
  · rw [same]
    simp [factors, isOne, sortedProduct_ne_infinity h]
  · have number : (const q).factors = [const q] := if_neg (by simpa [isOne] using one_ne)
    rw [same, factors, number]
    simpa using finite

theorem isFinite_multiple (q : Rat) : IsFinite (multiple q l) where
  defined := multiple_ne_undefined h q
  finite := hasInfiniteFactor_multiple h q

theorem isZero_multiple (q_ne : q ≠ 0) : (multiple q l).isZero = false := by
  by_contra vanishes
  have read := asMultiple_multiple (isMonic h) q_ne
  rw [(isZero_iff (multiple q l)).mp (by simpa using vanishes)] at read
  exact q_ne (Prod.mk.inj read).1.symm

theorem value?_multiple (q_ne : q ≠ 0) (some_factor : l ≠ []) : (multiple q l).value? = none := by
  obtain ⟨-, same⟩ | ⟨-, same⟩ | ⟨-, -, same⟩ := multiple_cases (isMonic h) q_ne some_factor
  · rw [same, value?_sortedProduct (isMonic h) some_factor]
  · rw [same]
    rfl
  · rw [same]
    rfl

end Multiple

/-- The general case of a product, behind the forms without a value, numbers, zero and one. -/
theorem timesPlain_eq {raise : Expr → Expr → Expr} (determinate : isIndeterminateProduct x y = false)
    (number : x.value? = none ∨ y.value? = none) (x_ne_zero : x.isZero = false)
    (y_ne_zero : y.isZero = false) (x_ne_one : x.isOne = false) (y_ne_one : y.isOne = false) :
    timesPlain raise x y =
      let (q, rest) := (mul x y).asMultiple
      let (folded, rest) := productOfPowers raise rest.factors
      if rest = infinity ∧ q * folded ≠ 0 then signedInfinity (q * folded)
      else scaled (q * folded) rest := by
  unfold timesPlain
  rw [if_neg (by simp [determinate])]
  split
  next left right =>
    rcases number with none | none
    · rw [none] at left
      cases left
    · rw [none] at right
      cases right
  next =>
    simp only [x_ne_zero, y_ne_zero, x_ne_one, y_ne_one, Bool.or_self, Bool.false_eq_true, if_false]

/-- A product of two multiples, neither of them one, from what its powers come to. -/
theorem timesPlain_multiple {t : Expr → Expr → Expr} {n : List Expr} {C : List Rat}
    (h : ∀ f ∈ l, f.isFactor = true) (k : ∀ f ∈ m, f.isFactor = true) (q_ne : q ≠ 0) (r_ne : r ≠ 0)
    (x_ne : (multiple q l).isOne = false) (y_ne : (multiple r m).isOne = false)
    (some_factor : l ++ m ≠ []) (factors : ∀ f ∈ n, f.isFactor = true)
    (raised : ((joinedPowers (Sorting.sort le (l ++ m))).map fun p => t p.1 p.2).Perm
      (n ++ C.map const)) :
    timesPlain t (multiple q l) (multiple r m) = multiple (q * r * C.prod) n := by
  have determinate := (isFinite_multiple h q).determinate (isFinite_multiple k r)
  have number : (multiple q l).value? = none ∨ (multiple r m).value? = none := by
    by_cases empty : l = []
    · exact .inr (value?_multiple k r_ne (by simpa [empty] using some_factor))
    · exact .inl (value?_multiple h q_ne empty)
  have sorted : (sortedProduct (Sorting.sort le l ++ Sorting.sort le m)).factors =
      Sorting.sort le (l ++ m) := by
    rw [factors_sortedProduct (atoms (List.forall_mem_append.mpr ⟨forall_mem_sort h, forall_mem_sort k⟩))]
    exact sort_eq_of_perm ((Sorting.sort_perm le l).append (Sorting.sort_perm le m))
  rw [timesPlain_eq determinate number (isZero_multiple h q_ne) (isZero_multiple k r_ne) x_ne y_ne,
    asMultiple_mul, asMultiple_multiple (isMonic h) q_ne, asMultiple_multiple (isMonic k) r_ne,
    factors_sortedProduct (atoms h), factors_sortedProduct (atoms k)]
  dsimp only
  rw [sorted, productOfPowers_eq factors raised]
  dsimp only
  rw [if_neg fun both => sortedProduct_ne_infinity factors both.1]
  rfl

theorem isFinite_const (q : Rat) : IsFinite (const q) := by
  rw [← multiple_nil q]
  exact isFinite_multiple (List.forall_mem_nil _) q

section Units
variable {raise : Expr → Expr → Expr}

theorem timesPlain_const (p q : Rat) : timesPlain raise (const p) (const q) = const (p * q) := by
  have determinate := (isFinite_const p).determinate (isFinite_const q)
  unfold timesPlain
  rw [if_neg (by simp [determinate])]
  rfl

namespace IsFinite
variable (h : IsFinite e)
include h

theorem timesPlain_zero_right : timesPlain raise e zero = zero := by
  have determinate := h.determinate (isFinite_const 0)
  unfold timesPlain
  rw [if_neg (by simp [zero, determinate])]
  split
  next p r _ right =>
    obtain rfl := Option.some.inj right
    rw [mul_zero]
    rfl
  next =>
    rw [if_pos]
    exact Bool.or_true _

theorem timesPlain_zero_left : timesPlain raise zero e = zero := by
  rw [timesPlain_comm, h.timesPlain_zero_right]

end IsFinite

theorem isIndeterminateProduct_one (e : Expr) : isIndeterminateProduct e one = true ↔ e = undefined := by
  have finite : one.hasInfiniteFactor = false := (isFinite_const 1).finite
  have notZero : one.isZero = false := rfl
  have defined : one ≠ undefined := (isFinite_const 1).defined
  simp [isIndeterminateProduct, finite, notZero, defined]

theorem timesPlain_one_right (e : Expr) : timesPlain raise e one = e := by
  unfold timesPlain
  split
  next indeterminate => exact ((isIndeterminateProduct_one e).mp indeterminate).symm
  split
  next p r left right =>
    obtain rfl := Option.some.inj right
    rw [mul_one]
    cases e <;> cases left
    rfl
  next =>
    split
    next vanishes =>
      have zero_eq := (isZero_iff e).mp (by simpa [show one.isZero = false from rfl] using vanishes)
      exact zero_eq.symm
    split
    next unit => exact ((isOne_iff e).mp unit).symm
    next => rfl

theorem timesPlain_one_left (e : Expr) : timesPlain raise one e = e := by
  rw [timesPlain_comm, timesPlain_one_right]

end Units

theorem eq_one_of_isOne_multiple (h : ∀ f ∈ l, f.isFactor = true) (unit : (multiple q l).isOne = true) :
    q = 1 ∧ l = [] := by
  rw [isOne_iff] at unit
  by_cases vanishes : q = 0
  · rw [vanishes] at unit
    cases unit
  have read := asMultiple_multiple (isMonic h) vanishes
  rw [unit] at read
  obtain ⟨coeff, rest⟩ := Prod.mk.inj read
  have listed := factors_sortedProduct (atoms h)
  rw [← rest] at listed
  refine ⟨coeff.symm, ?_⟩
  by_contra some_factor
  exact sort_ne_nil some_factor listed.symm

/-- Powers of different bases are multiplied by listing all of them. -/
theorem timesPlain_independent (h : Independent (l ++ m)) (q r : Rat) :
    timesPlain raise (multiple q l) (multiple r m) = multiple (q * r) (l ++ m) := by
  have left := h.left.factor
  have right := h.right.factor
  by_cases q_ne : q = 0
  · rw [q_ne, zero_mul, multiple_zero, multiple_zero, (isFinite_multiple right _).timesPlain_zero_left]
  by_cases r_ne : r = 0
  · rw [r_ne, mul_zero, multiple_zero, multiple_zero, (isFinite_multiple left _).timesPlain_zero_right]
  cases x_one : (multiple q l).isOne with
  | true =>
      obtain ⟨rfl, rfl⟩ := eq_one_of_isOne_multiple left x_one
      rw [multiple_nil, one_mul]
      exact timesPlain_one_left (multiple r m)
  | false =>
    cases y_one : (multiple r m).isOne with
    | true =>
        obtain ⟨rfl, rfl⟩ := eq_one_of_isOne_multiple right y_one
        rw [multiple_nil, mul_one, List.append_nil]
        exact timesPlain_one_right (multiple q l)
    | false =>
      by_cases some_factor : l ++ m = []
      · obtain ⟨rfl, rfl⟩ := List.append_eq_nil_iff.mp some_factor
        simp only [multiple_nil, List.append_nil]
        exact timesPlain_const q r
      · have sorted := h.perm (Sorting.sort_perm le (l ++ m)).symm
        have product := timesPlain_multiple (C := []) left right q_ne r_ne x_one y_one some_factor
          h.factor (t := raise) (by
            rw [joinedPowers_of_distinct sorted.distinct, sorted.raised, List.map_nil,
              List.append_nil]
            exact Sorting.sort_perm le (l ++ m))
        rw [product, List.prod_nil, mul_one]

/-- Two powers of one base are joined, whatever other bases there are. -/
theorem timesPlain_powers (base : b.isBase = true) (h : Independent (l ++ m))
    (new : b ∉ (l ++ m).map fun f => f.asPower.1) (q r i j : Rat) :
    timesPlain raise (multiple q (powers b i ++ l)) (multiple r (powers b j ++ m)) =
      multiple (q * r) (powers b (i + j) ++ (l ++ m)) := by
  have moved (k : List Expr) : (l ++ (k ++ m)).Perm (k ++ (l ++ m)) := by
    rw [← List.append_assoc, ← List.append_assoc]
    exact List.perm_append_comm.append_right m
  by_cases i_ne : i = 0
  · rw [i_ne, powers_zero, List.nil_append, zero_add,
      timesPlain_independent ((h.powers base new j).perm (moved _).symm)]
    exact multiple_perm (moved _)
  by_cases j_ne : j = 0
  · have listed := h.powers base new i
    rw [← List.append_assoc] at listed
    rw [j_ne, powers_zero, List.nil_append, add_zero, timesPlain_independent listed,
      List.append_assoc]
  obtain ⟨f, f_listed, f_isPower, f_power⟩ := exists_powers base i_ne
  obtain ⟨g, g_listed, g_isPower, g_power⟩ := exists_powers base j_ne
  have left : ∀ e ∈ f :: l, e.isFactor = true :=
    List.forall_mem_cons.mpr ⟨f_isPower.factor, h.left.factor⟩
  have right : ∀ e ∈ g :: m, e.isFactor = true :=
    List.forall_mem_cons.mpr ⟨g_isPower.factor, h.right.factor⟩
  rw [f_listed, g_listed, List.singleton_append, List.singleton_append]
  by_cases q_ne : q = 0
  · rw [q_ne, zero_mul, multiple_zero, multiple_zero, (isFinite_multiple right _).timesPlain_zero_left]
  by_cases r_ne : r = 0
  · rw [r_ne, mul_zero, multiple_zero, multiple_zero, (isFinite_multiple left _).timesPlain_zero_right]
  have notOne {q : Rat} {f : Expr} {l : List Expr} (h : ∀ e ∈ f :: l, e.isFactor = true) :
      (multiple q (f :: l)).isOne = false := by
    by_contra unit
    cases (eq_one_of_isOne_multiple h (by simpa using unit)).2
  have perm : (Sorting.sort le (f :: l ++ g :: m)).Perm (f :: g :: (l ++ m)) :=
    (Sorting.sort_perm le _).trans (List.perm_middle.cons f)
  have raised := raised_shared f_power g_power h new perm
  have product := timesPlain_multiple (C := if i + j = 0 then [1] else []) left right q_ne r_ne
    (notOne left) (notOne right) (by simp)
    (List.forall_mem_append.mpr ⟨isFactor_powers base (i + j), h.factor⟩)
    (t := raise) (by
      refine raised.trans ?_
      rw [← List.singleton_append, raised_powers base, List.append_assoc, List.append_assoc]
      exact List.perm_append_comm.append_left _)
  rw [product]
  congr 1
  split <;> simp

/-- Operands that are multiplied as they are: neither is a number to be distributed over
the other. -/
def MultipliesPlainly (x y : Expr) : Prop :=
  (y.isSum = true → x.multiplier? = none) ∧ (x.isSum = true → y.multiplier? = none)

theorem timesWith_eq_timesPlain {raise : Expr → Expr → Expr} (plain : MultipliesPlainly x y) :
    timesWith raise x y = timesPlain raise x y := by
  have left : (if y.isSum then x.multiplier? else none) = none := by
    split
    next sum => exact plain.1 sum
    next => rfl
  have right : (if x.isSum then y.multiplier? else none) = none := by
    split
    next sum => exact plain.2 sum
    next => rfl
  rw [timesWith, left, right]

theorem times_eq_timesPlain (plain : MultipliesPlainly x y) : x.times y = timesPlain raise x y := by
  rw [times_eq, timesWith_eq_timesPlain plain]

theorem multiplier?_of_value? (h : x.value? = none) : x.multiplier? = none := by
  cases x <;> first | rfl | cases h

theorem multiplier?_multiple (h : ∀ f ∈ l, f.isFactor = true) (some_factor : l ≠ []) (q : Rat) :
    (multiple q l).multiplier? = none := by
  by_cases vanishes : q = 0
  · rw [vanishes]
    rfl
  · exact multiplier?_of_value? (value?_multiple h vanishes some_factor)

theorem MultipliesPlainly.of_factors (h : ∀ f ∈ l, f.isFactor = true) (k : ∀ f ∈ m, f.isFactor = true)
    (left : l ≠ []) (right : m ≠ []) (q r : Rat) :
    MultipliesPlainly (multiple q l) (multiple r m) :=
  ⟨fun _ => multiplier?_multiple h left q, fun _ => multiplier?_multiple k right r⟩

theorem IsKey.isSum_multiple (h : IsKey l) (q : Rat) : (multiple q l).isSum = false := by
  by_cases empty : l = []
  · rw [empty, multiple_nil]
    rfl
  by_cases vanishes : q = 0
  · rw [vanishes]
    rfl
  · obtain ⟨-, same⟩ | ⟨-, same⟩ | ⟨-, -, same⟩ := multiple_cases h.toIsMonic vanishes empty
    · rw [same, h.sortedProduct_eq]
      exact h.plain
    · rw [same]
      rfl
    · rw [same]
      rfl

theorem MultipliesPlainly.of_keys (h : IsKey l) (k : IsKey m) (q r : Rat) :
    MultipliesPlainly (multiple q l) (multiple r m) := by
  constructor
  · intro sum
    rw [k.isSum_multiple] at sum
    cases sum
  · intro sum
    rw [h.isSum_multiple] at sum
    cases sum

theorem MultipliesPlainly.symm (h : MultipliesPlainly x y) : MultipliesPlainly y x := And.symm h

theorem MultipliesPlainly.number_right (h : x.isSum = true → (const q).multiplier? = none) :
    MultipliesPlainly x (const q) :=
  ⟨fun sum => absurd sum Bool.false_ne_true, h⟩

theorem times_independent (h : Independent (l ++ m))
    (plain : MultipliesPlainly (multiple q l) (multiple r m)) :
    (multiple q l).times (multiple r m) = multiple (q * r) (l ++ m) := by
  rw [times_eq_timesPlain plain, timesPlain_independent h]

theorem const_times_multiple (h : Independent l) (q r : Rat)
    (plain : (multiple r l).isSum = true → (const q).multiplier? = none) :
    (const q).times (multiple r l) = multiple (q * r) l := by
  have product := timesPlain_independent (l := []) (m := l) h q r
  rw [multiple_nil, List.nil_append] at product
  rw [times_eq_timesPlain (.symm (.number_right plain)), product]

theorem times_powers {i j : Rat} (base : b.isBase = true) (h : Independent (l ++ m))
    (new : b ∉ (l ++ m).map fun f => f.asPower.1)
    (plain : MultipliesPlainly (multiple q (powers b i ++ l)) (multiple r (powers b j ++ m))) :
    (multiple q (powers b i ++ l)).times (multiple r (powers b j ++ m)) =
      multiple (q * r) (powers b (i + j) ++ (l ++ m)) := by
  rw [times_eq_timesPlain plain, timesPlain_powers base h new]

/-! A number times a sum is distributed, which multiplies each amount that is collected. -/

section Distribution
variable {A : LikeTerms}

theorem timesConst_of_not_sum {raise : Expr → Expr → Expr} (h : e.isSum = false) (q : Rat) :
    timesConst raise q e = timesPlain raise e (const q) := by
  cases e <;> first | rfl | cases h

theorem multiplier?_const (h : q ≠ 0) (k : q ≠ 1) : (const q).multiplier? = some q := by
  simp [multiplier?, h, k]

theorem timesWith_const_right {raise : Expr → Expr → Expr} (h : IsFinite e) (q : Rat) :
    timesWith raise e (const q) = if q = 0 then zero else if q = 1 then e else timesConst raise q e := by
  split
  next vanishes =>
    rw [vanishes, timesWith_eq_timesPlain (.number_right fun _ => rfl)]
    exact h.timesPlain_zero_right
  next q_ne =>
    split
    next one =>
      rw [one, timesWith_eq_timesPlain (.number_right fun _ => rfl)]
      exact timesPlain_one_right e
    next one_ne =>
      have number : (const q).isSum = false := rfl
      cases sum : e.isSum with
      | true =>
          rw [timesWith, number, sum, if_pos rfl, if_neg Bool.false_ne_true, multiplier?_const q_ne one_ne]
      | false =>
          rw [timesWith, number, sum, if_neg Bool.false_ne_true, if_neg Bool.false_ne_true,
            timesConst_of_not_sum sum]

variable (keys : Keyed A) (independent : ∀ entry ∈ A, Independent entry.1)
include keys independent

theorem timesConst_collected (q : Rat) :
    timesConst raise q (collected A) = collected (A.map fun entry => (entry.1, q * entry.2)) := by
  have distributed := map_collected (P := fun _ => True) (F := fun l => [(l, q)])
    (g := timesConst raise q) keys (fun _ _ _ => rfl)
    (fun _ _ _ => trivial) ((timesPlain_const 0 q).trans (by rw [zero_mul]; rfl))
    (fun entry member => List.forall_mem_singleton.mpr (keys entry member)) ?_ trivial
  · rw [distributed, substituted, List.map_eq_flatMap]
    simp only [List.map_cons, List.map_nil, mul_comm]
  · intro entry member r _
    have key := keys entry member
    have alone : Independent (entry.1 ++ []) := by
      rw [List.append_nil]
      exact independent entry member
    rw [timesConst_of_not_sum (key.isSum_multiple r), ← multiple_nil q, timesPlain_independent alone,
      List.append_nil, key.multiple_eq]
    simp [substituted]

omit independent in
theorem isFinite_collected : IsFinite (collected A) := by
  have written := sumOf_collected keys.terms
  generalize collected A = e at written
  cases written with
  | zero => exact isFinite_const 0
  | multiple proper q_ne =>
      obtain ⟨r, listed⟩ := proper
      exact isFinite_multiple (keys _ listed).factors _
  | add => exact ⟨nofun, rfl⟩

theorem collected_times_const (q : Rat) :
    (collected A).times (const q) = collected (A.map fun entry => (entry.1, q * entry.2)) := by
  rw [times_eq, timesWith_const_right (isFinite_collected keys)]
  split
  next vanishes =>
    rw [vanishes, ← collected_nil]
    have keyed : Keyed (A.map fun entry => (entry.1, 0 * entry.2)) := List.forall_mem_map.mpr keys
    apply collected_congr (List.forall_mem_nil _) keyed.terms
    intro w
    simp [Tally.weighted, Function.comp_def]
  next =>
    split
    next one => simp [one]
    next => exact timesConst_collected keys independent q

/-- It does not matter on which side the number stands. -/
theorem const_times_collected (q : Rat) :
    (const q).times (collected A) = collected (A.map fun entry => (entry.1, q * entry.2)) := by
  rw [times_comm, collected_times_const keys independent]

end Distribution

end SymbolicAlgebra.Expr
