import SymbolicAlgebra.Proofs.Number
import SymbolicAlgebra.Proofs.Polynomial.Expression

/-! Quotients of multiples of powers of a symbol. A reciprocal turns the exponent, and a
quotient subtracts the exponents. -/

namespace SymbolicAlgebra.Expr

variable {name : String} {e f : Expr} {c k : Rat} {depth : ℕ}

theorem const_times_const (p q : Rat) : (const p).times (const q) = const (p * q) := by
  have plain : MultipliesPlainly (const p) (const q) := .number_right nofun
  rw [times_eq_timesPlain plain, timesPlain_const]

/-- A number is raised to an integer, except zero to a negative one. -/
theorem raise_const_int {k : ℤ} (bounded : k.natAbs ≤ Number.foldLimit) (based : 0 ≤ k ∨ c ≠ 0) :
    (const c).raise (const k) = const (c ^ k) := by
  have folded : (const k).value?.bind (Number.power? c) = some (c ^ k) :=
    Number.power?_eq_some.mpr ⟨k, rfl, bounded, based, rfl⟩
  rw [raise, raiseWith, if_neg (by simp)]
  split
  next zero =>
    obtain rfl : k = 0 := by simpa [isZero] using zero
    rw [zpow_zero]
    rfl
  split
  next one =>
    obtain rfl : k = 1 := by simpa [isOne] using one
    rw [zpow_one]
  split
  next one =>
    obtain rfl := Expr.const.inj ((isOne_iff _).mp one)
    rw [one_zpow]
    rfl
  next => simp only [folded]

/-- The reciprocal of a number is folded. -/
theorem raise_const_neg_one (c_ne : c ≠ 0) : (const c).raise (const (-1)) = const c⁻¹ := by
  have folded := raise_const_int (k := -1) (by decide) (.inr c_ne)
  rwa [Int.cast_neg, Int.cast_one, zpow_neg_one] at folded

theorem raise_powers (k_ne : k ≠ 0) (listed : powers (var name) k = [f]) :
    f.raise (const (-1)) = multiple 1 (powers (var name) (-k)) := by
  have base : (var name).isBase = true := rfl
  have raised (q : Rat) (q_ne : q ≠ 0) : (var name).raise (const q) = multiple 1 (powers (var name) q) := by
    rw [raise_of_isBase base, if_neg q_ne, powers, if_neg q_ne]
    split <;> exact (multiple_one_singleton rfl).symm
  rw [powers, if_neg k_ne] at listed
  split at listed
  next one =>
    obtain rfl := List.singleton_inj.mp listed
    rw [raised (-1) (by norm_num), one]
  next =>
    obtain rfl := List.singleton_inj.mp listed
    rw [raise_pow rfl rfl rfl, const_times_const, raised _ (by simpa using k_ne), mul_neg_one]

/-- The reciprocal of a multiple of a power of the symbol. -/
theorem raise_multiple_powers (name : String) (c_ne : c ≠ 0) (k : Rat) :
    (multiple c (powers (var name) k)).raise (const (-1)) = multiple c⁻¹ (powers (var name) (-k)) := by
  by_cases k_ne : k = 0
  · rw [k_ne, neg_zero, powers_zero, multiple_nil, multiple_nil, raise_const_neg_one c_ne]
  have key := isKey_powers name k
  have settled := settled_powers name (-k)
  obtain ⟨f, listed, -, -⟩ := exists_powers (b := var name) rfl k_ne
  have single : sortedProduct (powers (var name) k) = f := by
    rw [listed]
    exact sortedProduct_singleton (key.atoms f (listed ▸ List.mem_singleton_self f))
  have raised := raise_powers k_ne listed
  obtain ⟨rfl, same⟩ | ⟨rfl, same⟩ | ⟨-, -, same⟩ :=
    multiple_cases key.toIsMonic c_ne (powers_ne_nil k_ne)
  · rw [same, single, raised, inv_one]
  · rw [same, single, raise_neg rfl rfl rfl, if_pos (by decide), raised, negate_multiple (isMonic settled.factor)]
    norm_num
  · have notSum := (isKey_powers name (-k)).isSum_multiple 1
    rw [same, single, raise_mul rfl rfl rfl, raise_const_neg_one c_ne, raised,
      const_times_multiple settled.toIndependent _ _ (by simp [notSum]), mul_one]

/-- The general case of a division, behind zero and two numbers. -/
theorem dividedBy_eq {x y : Expr} (y_ne : y.isZero = false) (number : x.value? = none ∨ y.value? = none)
    (x_ne : x.isZero = false) :
    x.dividedBy y = if y.isOne then x else x.times (y.raise (const (-1))) := by
  rw [dividedBy, y_ne, if_neg Bool.false_ne_true]
  split
  next left right =>
    rcases number with none | none
    · rw [none] at left
      cases left
    · rw [none] at right
      cases right
  next => rw [x_ne, if_neg Bool.false_ne_true]

/-- Powers of the symbol are divided by subtracting the exponents. -/
theorem dividedBy_multiple {a c i k : Rat} (name : String) (a_ne : a ≠ 0) (c_ne : c ≠ 0) :
    (multiple a (powers (var name) i)).dividedBy (multiple c (powers (var name) k)) =
      multiple (a / c) (powers (var name) (i - k)) := by
  have left := (isKey_powers name i).factors
  have right := (isKey_powers name k).factors
  by_cases numbers : i = 0 ∧ k = 0
  · obtain ⟨rfl, rfl⟩ := numbers
    rw [sub_zero, powers_zero, multiple_nil, multiple_nil, multiple_nil]
    exact if_neg (by simpa [isZero] using c_ne)
  have number : (multiple a (powers (var name) i)).value? = none ∨
      (multiple c (powers (var name) k)).value? = none := by
    rcases not_and_or.mp numbers with i_ne | k_ne
    · exact .inl (value?_multiple left a_ne (powers_ne_nil i_ne))
    · exact .inr (value?_multiple right c_ne (powers_ne_nil k_ne))
  rw [dividedBy_eq (isZero_multiple right c_ne) number (isZero_multiple left a_ne)]
  split
  next unit =>
    obtain ⟨rfl, none⟩ := eq_one_of_isOne_multiple right unit
    have k_eq : k = 0 := by
      by_contra k_ne
      exact powers_ne_nil k_ne none
    rw [k_eq, sub_zero, div_one]
  next =>
    have product := times_powers (l := []) (m := []) (b := var name) (i := i) (j := -k) (q := a)
      (r := c⁻¹) rfl ⟨List.forall_mem_nil _, .nil⟩ List.not_mem_nil (by
        rw [List.append_nil, List.append_nil]
        exact .of_keys (isKey_powers name i) (isKey_powers name (-k)) a c⁻¹)
    simp only [List.append_nil] at product
    rw [raise_multiple_powers name c_ne, product, div_eq_mul_inv, sub_eq_add_neg]

theorem zero_dividedBy (e_ne : e.isZero = false) : zero.dividedBy e = zero := by
  rw [dividedBy, e_ne, if_neg Bool.false_ne_true]
  split
  next p q left right =>
    obtain rfl : 0 = p := Option.some.inj left
    rw [zero_div]
    rfl
  next => rfl

/-- The general case of a division of a sum. -/
theorem dividedBy_of_isSum {x y : Expr} (sum : x.isSum = true) (y_ne : y.isZero = false) :
    x.dividedBy y = if y.isOne then x else x.times (y.raise (const (-1))) := by
  apply dividedBy_eq y_ne
  · exact .inl (by cases x <;> first | rfl | cases sum)
  · cases x <;> first | rfl | cases sum

theorem times_of_isSum {x : Expr} (sum : x.isSum = true) (h : Independent [x, f]) (c : Rat) :
    x.times (multiple c [f]) = multiple c [x, f] := by
  have factor := isFactor_of_isBase (isBase_of_isSum sum)
  have product := times_independent (l := [x]) (m := [f]) h
    (.of_factors (List.forall_mem_singleton.mpr factor)
      (List.forall_mem_singleton.mpr (h.factor f (by simp))) (by simp) (by simp) 1 c)
  rwa [multiple_one_singleton factor, one_mul] at product

theorem isZero_of_isSum (sum : e.isSum = true) : e.isZero = false := by
  cases e <;> first | rfl | cases sum

theorem isOne_of_isSum (sum : e.isSum = true) : e.isOne = false :=
  isOne_of_isAtomic (isAtomic_of_isFactor (isFactor_of_isBase (isBase_of_isSum sum)))

end SymbolicAlgebra.Expr
