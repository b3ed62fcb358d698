import SymbolicAlgebra.Proofs.NormalForm.Exponential

/-! The canonical form of the integrands `x^n (1 - x)^m (a + b x) exp x`. It is a product,
but for `(1 - x)(1 + x)` and its opposite: there the difference of the squares is smaller. -/

namespace SymbolicAlgebra.Expr
open Polynomial (C X)
open SymbolicAlgebra.Poly (simplified termsOf)

variable {name : String} {e : Expr} {l R : List Expr} {a b c : Rat} {i j d n m : ℕ}

/-- The integrand `x^n (1 - x)^m (a + b x) exp x`. -/
def exponentialIntegrand (name : String) (n m : ℕ) (a b : Rat) : Expr :=
  mul (mul (mul (pow (var name) (const n)) (pow (sub one (var name)) (const m)))
    (add (const a) (mul (const b) (var name)))) (app .exp (var name))

section Factors
variable (name)

theorem simplified_one_monomial (c : Rat) :
    (Poly.monomial 1 c).simplified name = multiple c [var name] := by
  rw [Poly.simplified_monomial name (by decide), Nat.cast_one, powers_one]

theorem evaluate_falling : (sub one (var name)).evaluate = falling.simplified name := by
  have opposite : (Poly.monomial 1 (-1)).simplified name = neg (var name) := by
    rw [simplified_one_monomial name]
    rfl
  rw [falling, linear, ← Poly.simplified_plus, Poly.simplified_const, opposite]
  rfl

theorem evaluate_linear (a b : Rat) :
    (add (const a) (mul (const b) (var name))).evaluate = (linear a b).simplified name := by
  have product : (const b).times (var name) = (Poly.monomial 1 b).simplified name := by
    have symbol : multiple 1 [var name] = var name := multiple_one_singleton rfl
    have multiplied := const_times_multiple (l := [var name]) (settled_powers name 1).toIndependent b 1
      (by intro sum; cases sum)
    rwa [symbol, mul_one, ← simplified_one_monomial name] at multiplied
  rw [linear, ← Poly.simplified_plus, Poly.simplified_const, ← product]
  rfl

/-- With one coefficient the second sum is a monomial. -/
theorem simplified_linear (single : a = 0 ∨ b = 0) (some_term : a ≠ 0 ∨ b ≠ 0) : ∃ c ≠ 0, ∃ d : ℕ,
    (linear a b).simplified name = multiple c (powers (var name) d) := by
  rcases single with rfl | rfl
  · refine ⟨b, by simpa using some_term, 1, ?_⟩
    have same : linear 0 b = Poly.monomial 1 b := by
      apply Poly.toPolynomial_injective
      rw [toPolynomial_linear, Poly.toPolynomial_symbol, Polynomial.monomial_zero_right, zero_add]
    rw [same, simplified_one_monomial, Nat.cast_one, powers_one]
  · refine ⟨a, by simpa using some_term, 0, ?_⟩
    have same : linear a 0 = Poly.const a := by
      apply Poly.toPolynomial_injective
      rw [toPolynomial_linear, Poly.toPolynomial_const, Polynomial.monomial_zero_right, add_zero,
        Polynomial.monomial_zero_left]
    rw [same, Poly.simplified_const, Nat.cast_zero, powers_zero, multiple_nil]

end Factors

theorem multiplier?_multiple_one (h : ∀ f ∈ l, f.isFactor = true) : (multiple 1 l).multiplier? = none := by
  by_cases empty : l = []
  · rw [empty, multiple_nil]
    rfl
  · exact multiplier?_multiple h empty 1

theorem multiplier?_simplified {p : Poly} (sum : (p.simplified name).isSum = true) :
    (p.simplified name).multiplier? = none := by
  generalize p.simplified name = s at sum
  cases s <;> first | rfl | cases sum

theorem times_exp (settled : Settled (l ++ [expVar name])) (c : Rat) :
    (multiple c l).times (expVar name) = multiple c (l ++ [expVar name]) := by
  have single : multiple 1 [expVar name] = expVar name := multiple_one_singleton rfl
  have plain : MultipliesPlainly (multiple c l) (multiple 1 [expVar name]) := by
    rw [single]
    exact ⟨fun sum => Bool.noConfusion sum, fun _ => rfl⟩
  have product := times_independent settled.toIndependent plain
  rwa [single, mul_one] at product

theorem settled_withPowers_nil (name : String) (n m : ℕ) : Settled (withPowers name n m falling []) :=
  settled_withPowers (isSum_falling name) List.not_mem_nil (fun _ => List.not_mem_nil) .nil n

theorem evaluate_powers (name : String) (n m : ℕ) :
    (mul (pow (var name) (const n)) (pow (sub one (var name)) (const m))).evaluate =
      multiple 1 (withPowers name n m falling []) := by
  have raised {b : Expr} (base : b.isBase = true) (k : ℕ) : b.raise (const k) = multiple 1 (powers b k) := by
    rw [raise_of_isBase base, powers]
    split
    · rw [multiple_nil]
      rfl
    · split
      · rw [multiple_one_singleton (isFactor_of_isBase base)]
      · rw [multiple_one_singleton rfl]
  have settled := settled_withPowers_nil name n m
  rw [withPowers, List.append_nil] at settled ⊢
  have plain : MultipliesPlainly (multiple 1 (powers (var name) n))
      (multiple 1 (powers (falling.simplified name) m)) :=
    ⟨fun _ => multiplier?_multiple_one settled.toIndependent.left.factor,
      fun _ => multiplier?_multiple_one settled.toIndependent.right.factor⟩
  have product := times_independent settled.toIndependent plain
  rw [mul_one] at product
  rw [← product, ← raised rfl, ← raised (isBase_of_isSum (isSum_falling name)), ← evaluate_falling]
  rfl

/-- The evaluation of the integrand from that of the first three factors. -/
theorem simplify_exponentialIntegrand (settled : Settled (withPowers name i j falling (R ++ [expVar name])))
    (product : (multiple 1 (withPowers name n m falling [])).times ((linear a b).simplified name) =
      multiple c (withPowers name i j falling R)) :
    (exponentialIntegrand name n m a b).simplify = multiple c (withPowers name i j falling (R ++ [expVar name])) := by
  have split : withPowers name i j falling (R ++ [expVar name]) =
      withPowers name i j falling R ++ [expVar name] := by
    simp only [withPowers, List.append_assoc]
  have exp_mem : expVar name ∈ withPowers name i j falling (R ++ [expVar name]) := by
    rw [split]
    exact List.mem_append_right _ (List.mem_singleton_self _)
  apply settled.simplify_eq (isKey_sort_of_mem settled.factor exp_mem rfl)
  rw [split] at settled ⊢
  rw [← times_exp settled, ← product, ← evaluate_powers, ← evaluate_linear]
  rfl

/-- Products with a number, unless the sum stands alone, are no sums. -/
theorem isSum_withPowers (proper : ¬ (n = 0 ∧ m = 1)) :
    (multiple 1 (withPowers name n m falling [])).isSum = false := by
  have settled := settled_withPowers_nil name n m
  by_cases empty : withPowers name n m falling [] = []
  · rw [empty, multiple_nil]
    rfl
  have plain : ∃ f ∈ withPowers name n m falling [], f.isSum = false := by
    rw [withPowers, List.append_nil] at empty ⊢
    by_cases n_ne : n = 0
    · have other := (isCofactor_powers (isSum_falling name) fun one => proper ⟨n_ne, one⟩).noSum
      obtain ⟨f, member⟩ := List.exists_mem_of_ne_nil _ empty
      rw [n_ne, Nat.cast_zero, powers_zero, List.nil_append] at member ⊢
      exact ⟨f, member, other f (List.mem_append_left _ member)⟩
    · have member : Poly.powerExpr name n ∈ powers (var name) n := by
        rw [Poly.powers_eq name n_ne]
        exact List.mem_singleton_self _
      exact ⟨_, List.mem_append_left _ member, isSum_powers_var member⟩
  obtain ⟨f, member, noSum⟩ := plain
  rw [← multiple_perm (Sorting.sort_perm le _)]
  exact (isKey_sort_of_mem settled.factor member noSum).isSum_multiple 1

section Product
variable (name) (n m)

/-- A monomial joins the power of the symbol, unless a number meets the bare sum. -/
theorem times_monomial (c : Rat) (proper : ¬ (n = 0 ∧ m = 1) ∨ d ≠ 0) :
    (multiple 1 (withPowers name n m falling [])).times (multiple c (powers (var name) d)) =
      multiple c (withPowers name (n + d) m falling []) := by
  have key := isKey_powers name d
  have settled := settled_withPowers_nil name 0 m
  have factor := (settled_withPowers_nil name n m).factor
  rw [withPowers, Nat.cast_zero, powers_zero, List.nil_append, List.append_nil] at settled
  rw [withPowers, List.append_nil] at factor
  have plain : MultipliesPlainly (multiple 1 (powers (var name) n ++ powers (falling.simplified name) m))
      (multiple c (powers (var name) d ++ [])) := by
    rw [List.append_nil]
    refine ⟨fun _ => multiplier?_multiple_one factor, fun sum => ?_⟩
    by_cases d_ne : d = 0
    · have noSum : (multiple 1 (withPowers name n m falling [])).isSum = false :=
        isSum_withPowers (proper.resolve_right (not_not.mpr d_ne))
      rw [withPowers, List.append_nil, sum] at noSum
      cases noSum
    · exact multiplier?_multiple key.factors (powers_ne_nil (by exact_mod_cast d_ne)) c
  have new : var name ∉ (powers (falling.simplified name) m ++ []).map fun f : Expr => f.asPower.1 := by
    rw [List.append_nil]
    exact symbol_notMem_powers (isSum_falling name) m
  have product := times_powers rfl (by rwa [List.append_nil] : Settled _).toIndependent new plain
  rw [one_mul, List.append_nil, ← Nat.cast_add] at product
  simpa only [withPowers, List.append_nil] using product

/-- A number that meets the bare sum is distributed over it. -/
theorem falling_times_const (c_ne : c ≠ 0) : (multiple 1 (withPowers name 0 1 falling [])).times (const c) =
    multiple 1 (withPowers name 0 0 falling [(linear c (-c)).simplified name]) := by
  have sum' : ((linear c (-c)).simplified name).isSum = true := isSum_linear c_ne (neg_ne_zero.mpr c_ne) name
  have left : withPowers name 0 1 falling [] = [falling.simplified name] := by
    rw [withPowers, Nat.cast_zero, Nat.cast_one, powers_zero, powers_one]
    rfl
  have right : withPowers name 0 0 falling [(linear c (-c)).simplified name] =
      [(linear c (-c)).simplified name] := by
    rw [withPowers, Nat.cast_zero, powers_zero, powers_zero]
    rfl
  rw [left, right, multiple_one_singleton (isFactor_of_isBase (isBase_of_isSum (isSum_falling name))),
    multiple_one_singleton (isFactor_of_isBase (isBase_of_isSum sum')),
    Poly.simplified_times_const name _ c_ne, falling, scale_linear, mul_one, mul_neg_one]

theorem times_falling : (multiple 1 (withPowers name n m falling [])).times (falling.simplified name) =
    multiple 1 (withPowers name n (m + 1) falling []) := by
  have sum := isSum_falling name
  have base := isBase_of_isSum sum
  have single : multiple 1 (powers (falling.simplified name) 1 ++ []) = falling.simplified name := by
    rw [powers_one]
    exact multiple_one_singleton (isFactor_of_isBase base)
  have turned (k : ℕ) : (powers (falling.simplified name) k ++ powers (var name) n).Perm
      (withPowers name n k falling []) := by
    rw [withPowers, List.append_nil]
    exact List.perm_append_comm
  have symbol : Settled (powers (var name) n ++ []) := by
    rw [List.append_nil]
    exact settled_powers name n
  have new : falling.simplified name ∉ (powers (var name) n ++ []).map fun f : Expr => f.asPower.1 := by
    rw [List.append_nil]
    intro member
    obtain ⟨f, inside, same⟩ := List.mem_map.mp member
    rw [base_of_mem_powers (b := var name) rfl inside] at same
    rw [← same] at sum
    cases sum
  have plain : MultipliesPlainly (multiple 1 (powers (falling.simplified name) m ++ powers (var name) n))
      (multiple 1 (powers (falling.simplified name) 1 ++ [])) := by
    rw [single, multiple_perm (turned m)]
    exact ⟨fun _ => multiplier?_multiple_one (settled_withPowers_nil name n m).factor,
      fun _ => multiplier?_simplified sum⟩
  have product := times_powers base symbol.toIndependent new plain
  rw [single, one_mul, ← Nat.cast_add_one, List.append_nil, multiple_perm (turned m),
    multiple_perm (turned (m + 1))] at product
  exact product

theorem times_linear (a_ne : a ≠ 0) (b_ne : b ≠ 0) (different : m ≠ 0 → falling ≠ linear a b) :
    (multiple 1 (withPowers name n m falling [])).times ((linear a b).simplified name) =
      multiple 1 (withPowers name n m falling [(linear a b).simplified name]) := by
  have sum := isSum_linear a_ne b_ne name
  have single : multiple 1 [(linear a b).simplified name] = (linear a b).simplified name :=
    multiple_one_singleton (isFactor_of_isBase (isBase_of_isSum sum))
  have split : withPowers name n m falling [(linear a b).simplified name] =
      withPowers name n m falling [] ++ [(linear a b).simplified name] := by
    simp only [withPowers, List.append_assoc, List.nil_append]
  have independent : Independent (withPowers name n m falling [(linear a b).simplified name]) := by
    apply Independent.left (m := [expVar name])
    have all := (settled_withSum a_ne b_ne (isSum_falling name) different n).toIndependent
    simpa only [withSum, withPowers, List.append_assoc, List.singleton_append] using all
  have plain : MultipliesPlainly (multiple 1 (withPowers name n m falling []))
      (multiple 1 [(linear a b).simplified name]) := by
    rw [single]
    exact ⟨fun _ => multiplier?_multiple_one (settled_withPowers_nil name n m).factor,
      fun _ => multiplier?_simplified sum⟩
  rw [split] at independent ⊢
  have product := times_independent independent plain
  rwa [single, mul_one] at product

end Product

section Size
variable (factors : ∀ f ∈ withPowers name i j falling R, f.isFactor = true) (c_ne : c ≠ 0)

theorem totalSize_powers_falling (name : String) (j : ℕ) : totalSize (powers (falling.simplified name) j) ≤ 7 := by
  have size : totalSize [falling.simplified name] = 5 := totalSize_linear one_ne_zero (by decide) name
  rw [totalSize_cons, totalSize_nil] at size
  unfold powers
  split
  · exact Nat.zero_le 7
  · split <;> rw [totalSize_cons, totalSize_nil]
    · omega
    · simp only [Expr.size]
      omega

include factors c_ne

theorem size_withPowers_le (some_factor : withPowers name i j falling R ≠ []) :
    (multiple c (withPowers name i j falling R)).size ≤ totalSize R + 13 := by
  have size := size_multiple factors c_ne some_factor
  have symbol : symbolSize i ≤ 4 := by
    unfold symbolSize
    split
    · exact Nat.zero_le 4
    · split <;> decide
  have falling := totalSize_powers_falling name j
  have coefficient := coefficientSize_le c
  rw [withPowers, totalSize_append, totalSize_append, totalSize_powers] at size
  rw [withPowers]
  omega

end Size

/-- The normal form of an expression that is simplified to a product. -/
theorem exists_normalize (factors : ∀ f ∈ l, f.isFactor = true) (two : 2 ≤ l.length) (c_ne : c ≠ 0)
    (small : (multiple c l).size ≤ normalSizeLimit) (simplified : e.simplify = multiple c l) :
    ∃ depth, e.normalize = if c = -1
      then (normalProduct (normalizeWithin normalSizeLimit depth) (multiple 1 l)).negate
      else normalProduct (normalizeWithin normalSizeLimit (depth + 1)) (multiple c l) := by
  obtain ⟨depth, deep⟩ := Nat.exists_eq_add_of_le' (multiple c l).size_pos
  refine ⟨depth, ?_⟩
  rw [normalize, normalizeSized, simplified, deep]
  exact normalizeWithin_multiple factors two c_ne small

theorem totalSize_exp (name : String) : totalSize [expVar name] = 3 := rfl

theorem staysFactored_expVar (name : String) : StaysFactored name (expVar name) := by
  have product : multiple 1 (factored name 0 [expVar name] []) = expVar name := by
    rw [factored, Nat.cast_zero, powers_zero]
    exact multiple_one_singleton rfl
  have settled : Settled (factored name 0 [expVar name] []) := by
    rw [factored, Nat.cast_zero, powers_zero]
    exact settled_expVar name
  rw [← product]
  exact .plain (isCofactor_expVar name) (by simp) settled one_ne_zero

/-- Without another sum the integrand stays factored. -/
theorem staysFactored_normalize (c_ne : c ≠ 0)
    (simplified : e.simplify = multiple c (withPowers name i j falling [expVar name])) :
    StaysFactored name e.normalize := by
  have settled := settled_powers_exp (isSum_falling name) i j
  have some_factor : withPowers name i j falling [expVar name] ≠ [] := by simp [withPowers]
  have small : (multiple c (withPowers name i j falling [expVar name])).size ≤ normalSizeLimit :=
    (size_withPowers_le settled.factor c_ne some_factor).trans (by rw [totalSize_exp]; decide)
  by_cases two : 2 ≤ (withPowers name i j falling [expVar name]).length
  · obtain ⟨depth, normal⟩ := exists_normalize settled.factor two c_ne small simplified
    rw [normal]
    split
    · exact (staysFactored_without _ _ _ _ one_ne_zero).negate
    · exact staysFactored_without _ _ _ _ c_ne
  · -- the exponential stands alone
    have single : withPowers name i j falling [expVar name] = [expVar name] := by
      have none_else : (powers (var name) i ++ powers (falling.simplified name) j).length = 0 := by
        simp only [withPowers, List.length_append, List.length_singleton] at two ⊢
        omega
      rw [withPowers, ← List.append_assoc, List.eq_nil_of_length_eq_zero none_else, List.nil_append]
    obtain ⟨depth, deep⟩ := Nat.exists_eq_add_of_le' e.simplify.size_pos
    rw [normalize, normalizeSized, deep]
    by_cases one : c = 1
    · rw [simplified, single, one, multiple_one_singleton rfl, normalizeWithin_expVar]
      exact staysFactored_expVar name
    by_cases opposite : c = -1
    · have whole : e.simplify = neg (expVar name) := by
        rw [simplified, single, opposite]
        rfl
      have size : (neg (expVar name)).size = 3 := rfl
      rw [whole, normalizeWithin, normalLevel, size, if_neg (by decide), normalizeWithin_expVar]
      exact (staysFactored_expVar name).negate
    · rw [simplified, normalizeWithin_scaled settled.factor some_factor c_ne one opposite small]
      exact staysFactored_without _ _ _ _ c_ne

section Sum
variable (a_ne : a ≠ 0) (b_ne : b ≠ 0)
include a_ne b_ne

/-- The normal form of an integrand with another sum. -/
theorem exists_normalize_withSum (different : j ≠ 0 → falling ≠ linear a b)
    (simplified : e.simplify = multiple 1 (withSum name i j falling a b)) : ∃ depth,
      e.normalize = normalProduct (normalizeWithin normalSizeLimit depth)
        (multiple 1 (withSum name i j falling a b)) := by
  have settled := settled_withSum a_ne b_ne (isSum_falling name) different i
  have two : 2 ≤ (withSum name i j falling a b).length := by
    rw [(perm_withSum name i j falling a b).length_eq, withPowers]
    simp only [List.length_cons, List.length_append, List.length_nil]
    omega
  have some_factor : withSum name i j falling a b ≠ [] := List.ne_nil_of_length_pos (by omega)
  have small : (multiple 1 (withSum name i j falling a b)).size ≤ normalSizeLimit := by
    have size := size_withPowers_le settled.factor one_ne_zero some_factor
    have linear := totalSize_linear a_ne b_ne name
    have coefficient := coefficientSize_le b
    rw [← List.singleton_append, totalSize_append, linear, totalSize_exp] at size
    exact size.trans (by rw [normalSizeLimit]; omega)
  obtain ⟨depth, normal⟩ := exists_normalize settled.factor two one_ne_zero small simplified
  rw [if_neg (by decide)] at normal
  exact ⟨depth + 1, normal⟩

/-- Nor does it matter beside a power of `1 - x` other than the first. -/
theorem staysFactored_normalize_withSum (different : j ≠ 0 → falling ≠ linear a b) (one_ne : j ≠ 1)
    (simplified : e.simplify = multiple 1 (withSum name i j falling a b)) : StaysFactored name e.normalize := by
  obtain ⟨depth, normal⟩ := exists_normalize_withSum a_ne b_ne different simplified
  rw [normal]
  exact staysFactored_withSum a_ne b_ne different _ depth i one_ne

/-- The terms of `x^i (1 - x) (a + b x)`. -/
theorem termsOf_two_sums (i : ℕ) : termsOf (X ^ i * (falling.toPolynomial * (linear a b).toPolynomial)) =
    if a = b then [(i, a), (i + 2, -b)] else [(i, a), (i + 1, b - a), (i + 2, -b)] := by
  have product : X ^ i * (falling.toPolynomial * (linear a b).toPolynomial) =
      Polynomial.monomial i a + Polynomial.monomial (i + 1) (b - a) + Polynomial.monomial (i + 2) (-b) := by
    rw [falling, toPolynomial_linear, toPolynomial_linear]
    simp only [← Polynomial.C_mul_X_pow_eq_monomial, map_sub, map_neg, map_one]
    ring
  split
  next same =>
    apply Poly.termsOf_eq
    · simp
    · simp [a_ne, b_ne]
    · rw [product, same]
      simp
  next different =>
    apply Poly.termsOf_eq
    · simp
    · simp [a_ne, b_ne, sub_ne_zero, Ne.symm different]
    · rw [product]
      simp [add_assoc]

/-- Beside `1 - x` the other sum is multiplied out if that makes the middle term vanish,
and the others have no coefficient. -/
theorem isSum_canonicalize_two_sums (other : falling ≠ linear a b)
    (simplified : e.simplify = multiple 1 (withSum name i 1 falling a b)) (passes : ℕ) :
    (e.canonicalize passes).isSum = true ↔ a = b ∧ (a = 1 ∨ a = -1) := by
  have cofactor := isCofactor_expVar name
  have some_factor : [expVar name] ≠ [] := by simp
  have rearranged : (factored name i [expVar name] [falling, linear a b]).Perm (withSum name i 1 falling a b) := by
    rw [factored, withSum, withPowers, List.append_assoc, Nat.cast_one, powers_one]
    exact List.perm_append_comm.append_left _
  have settled := (settled_withSum a_ne b_ne (isSum_falling name) (fun _ => other) i).perm rearranged.symm
  obtain ⟨depth, normal⟩ := exists_normalize_withSum a_ne b_ne (fun _ => other) simplified
  rw [normalProduct_two_sums a_ne b_ne _ depth i other, ← multiple_perm rearranged] at normal
  let r := X ^ i * (falling.toPolynomial * (linear a b).toPolynomial)
  have terms := termsOf_two_sums a_ne b_ne i
  have few : (([falling, linear a b] : List Poly).map fun p => p.terms.length).prod ≤ expansionLimit := by
    simp [falling, terms_linear one_ne_zero, terms_linear a_ne b_ne, expansionLimit]
  have short : (termsOf r).length ≤ expansionLimit := by
    rw [terms]
    split <;> simp [expansionLimit]
  have nonzero : r ≠ 0 := by
    apply Poly.ne_zero_of_termsOf
    rw [terms]
    split <;> simp
  have expanded := size_withCofactor cofactor some_factor nonzero
  have product := size_factored some_factor settled one_ne_zero
  have first : totalSize [falling.simplified name] = 5 := totalSize_linear one_ne_zero (by decide) name
  have second := totalSize_linear a_ne b_ne name
  have last : symbolSize (i + 2) = 4 := by rw [symbolSize, if_neg (by omega), if_neg (by omega)]
  have unit : coefficientSize 1 = 0 := rfl
  rw [totalSize_exp, unit] at product
  simp only [List.map_cons, List.map_nil, totalSize_cons, totalSize_nil] at product first second
  rw [terms, totalSize_exp] at expanded
  rw [isSum_canonicalize (r := r) cofactor some_factor settled
    (List.forall_mem_cons.mpr ⟨isSum_falling name, List.forall_mem_singleton.mpr (isSum_linear a_ne b_ne name)⟩)
    few (by simp [r]) short one_ne_zero normal passes, Polynomial.C_1, one_mul, terms]
  by_cases same : a = b
  · obtain rfl := same
    have smaller : coefficientSize (-a) < 2 ↔ a = 1 ∨ a = -1 := by
      rw [coefficientSize_lt_two, neg_inj, neg_eq_iff_eq_neg, or_comm]
    rw [if_pos rfl] at expanded
    simp only [List.map_cons, List.map_nil, List.sum_cons, List.sum_nil, last] at expanded
    rw [if_pos rfl, ← smaller]
    constructor
    · rintro ⟨-, -, less⟩
      exact ⟨rfl, by omega⟩
    · rintro ⟨-, less⟩
      exact ⟨by decide, by simp, by omega⟩
  · -- the middle term alone makes the sum larger
    have middle := two_le_symbolSize i
    rw [if_neg same] at expanded
    simp only [List.map_cons, List.map_nil, List.sum_cons, List.sum_nil, last] at expanded
    have coefficient := coefficientSize_le b
    exact iff_of_false (fun sum => by omega) fun equal => same equal.1

end Sum

theorem simplify_withSum (name : String) (n m : ℕ) (a_ne : a ≠ 0) (b_ne : b ≠ 0)
    (different : m ≠ 0 → falling ≠ linear a b) :
    (exponentialIntegrand name n m a b).simplify = multiple 1 (withSum name n m falling a b) := by
  have settled := settled_withSum a_ne b_ne (isSum_falling name) different n
  exact simplify_exponentialIntegrand (R := [(linear a b).simplified name]) settled
    (times_linear name n m a_ne b_ne different)

theorem falling_eq_linear (a_ne : a ≠ 0) (b_ne : b ≠ 0) : falling = linear a b ↔ a = 1 ∧ b = -1 := by
  constructor
  · intro same
    have terms := congrArg Poly.terms same
    rw [falling, terms_linear one_ne_zero (by decide), terms_linear a_ne b_ne] at terms
    simp only [List.cons.injEq, Prod.mk.injEq, true_and, and_true] at terms
    exact ⟨terms.1.symm, terms.2.symm⟩
  · rintro ⟨rfl, rfl⟩
    rfl

theorem canonicalize_zero (name : String) (n m passes : ℕ) :
    (exponentialIntegrand name n m 0 0).canonicalize passes = zero := by
  have nothing : (linear 0 0).simplified name = zero := by
    rw [linear, ← Poly.simplified_plus, Poly.simplified_const]
    rfl
  have evaluated : (exponentialIntegrand name n m 0 0).evaluate = multiple 0 [] := by
    have first : (multiple 1 (withPowers name n m falling [])).times zero = zero :=
      times_zero (settled_withPowers_nil name n m).factor 1
    have second : zero.times (expVar name) = zero := by
      rw [← multiple_one_singleton (show (expVar name).isFactor = true from rfl)]
      exact zero_times (List.forall_mem_singleton.mpr rfl) 1
    rw [multiple_nil, ← zero, ← second, ← first, ← nothing, ← evaluate_powers, ← evaluate_linear]
    rfl
  have simplified := Settled.nil.simplify_eq isKey_nil evaluated
  have normal : (exponentialIntegrand name n m 0 0).normalize = zero := by
    rw [normalize, normalizeSized, simplified, multiple_nil, normalizeWithin_const]
    rfl
  have fixed : zero.pass = zero := by
    have passed := pass_multiple .nil isKey_nil 0
    rwa [multiple_nil] at passed
  rw [canonicalize_of_normalize normal fixed rfl fixed]
  exact if_neg (Nat.lt_irrefl _)

/-- With one coefficient the integrand stays factored. -/
theorem staysFactored_single (name : String) (n m : ℕ) (single : a = 0 ∨ b = 0) (some_term : a ≠ 0 ∨ b ≠ 0) :
    StaysFactored name (exponentialIntegrand name n m a b).normalize := by
  obtain ⟨c, c_ne, d, monomial⟩ := simplified_linear name single some_term
  have sum := isSum_falling name
  by_cases bare : (n = 0 ∧ m = 1) ∧ d = 0
  · -- the number is distributed over `1 - x`
    obtain ⟨⟨rfl, rfl⟩, rfl⟩ := bare
    rw [Nat.cast_zero, powers_zero, multiple_nil] at monomial
    have opposite_ne := neg_ne_zero.mpr c_ne
    have different : 0 ≠ 0 → falling ≠ linear c (-c) := fun h => absurd rfl h
    have product := falling_times_const name c_ne
    rw [← monomial] at product
    have settled := settled_withSum c_ne opposite_ne sum different 0
    have simplified := simplify_exponentialIntegrand (R := [(linear c (-c)).simplified name]) settled product
    exact staysFactored_normalize_withSum c_ne opposite_ne different zero_ne_one simplified
  · have product := times_monomial name n m c (not_and_or.mp bare)
    rw [← monomial] at product
    have simplified := simplify_exponentialIntegrand (settled_powers_exp sum (n + d) m) product
    exact staysFactored_normalize c_ne simplified

/-- The sum `1 - x` itself joins the power. -/
theorem staysFactored_joined (name : String) (n m : ℕ) :
    StaysFactored name (exponentialIntegrand name n m 1 (-1)).normalize := by
  have settled := settled_powers_exp (isSum_falling name) n (m + 1)
  have same : falling.simplified name = (linear 1 (-1)).simplified name := by
    rw [(falling_eq_linear one_ne_zero (by decide)).mpr ⟨rfl, rfl⟩]
  have product := times_falling name n m
  rw [same] at product
  have simplified := simplify_exponentialIntegrand settled product
  exact staysFactored_normalize one_ne_zero simplified

/-- The canonical form of the integrand `x^n (1 - x)^m (a + b x) exp x` is a sum just for
`x^n (1 - x) (1 + x) exp x` and its opposite. -/
theorem isSum_canonicalize_exponentialIntegrand (name : String) (n m : ℕ) (a b : Rat) (passes : ℕ) :
    ((exponentialIntegrand name n m a b).canonicalize passes).isSum = true ↔
      m = 1 ∧ a = b ∧ (a = 1 ∨ a = -1) := by
  by_cases nothing : a = 0 ∧ b = 0
  · obtain ⟨rfl, rfl⟩ := nothing
    rw [canonicalize_zero]
    exact iff_of_false (by decide) (by simp)
  by_cases single : a = 0 ∨ b = 0
  · rw [(staysFactored_single name n m single (not_and_or.mp nothing)).isSum_canonicalize passes]
    refine iff_of_false Bool.false_ne_true ?_
    rintro ⟨-, rfl, -⟩
    exact nothing ⟨single.elim id id, single.elim id id⟩
  obtain ⟨a_ne, b_ne⟩ := not_or.mp single
  by_cases joined : falling = linear a b
  · obtain ⟨rfl, rfl⟩ := (falling_eq_linear a_ne b_ne).mp joined
    rw [(staysFactored_joined name n m).isSum_canonicalize passes]
    exact iff_of_false Bool.false_ne_true fun sum => absurd sum.2.1 (by decide)
  · have different (_ : m ≠ 0) : falling ≠ linear a b := joined
    have simplified := simplify_withSum name n m a_ne b_ne different
    by_cases one : m = 1
    · obtain rfl := one
      rw [isSum_canonicalize_two_sums a_ne b_ne joined simplified]
      simp
    · rw [(staysFactored_normalize_withSum a_ne b_ne different one simplified).isSum_canonicalize passes]
      exact iff_of_false Bool.false_ne_true fun sum => one sum.1

/-- Both factors of a difference of squares are multiplied out. -/
theorem difference_of_squares_is_multiplied_out :
    ((exponentialIntegrand "x" 0 1 1 1).canonicalize defaultPasses).isSum = true := by
  have other : falling ≠ linear 1 1 := fun same =>
    absurd ((falling_eq_linear one_ne_zero one_ne_zero).mp same).2 (by decide)
  have simplified := simplify_withSum "x" 0 1 one_ne_zero one_ne_zero fun _ => other
  exact (isSum_canonicalize_two_sums one_ne_zero one_ne_zero other simplified defaultPasses).mpr ⟨rfl, .inl rfl⟩

end SymbolicAlgebra.Expr
