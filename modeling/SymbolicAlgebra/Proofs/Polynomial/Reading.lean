import SymbolicAlgebra.NormalForm.Linear
import SymbolicAlgebra.Proofs.Polynomial.Coefficients
import SymbolicAlgebra.Proofs.Polynomial.Denotation
import SymbolicAlgebra.Proofs.Polynomial.Expression

/-! Reading the expression that simplification writes for a polynomial. Each reader goes
through the sum term by term, so what it finds is compared with the amounts of the
powers in the terms it has passed. -/

namespace SymbolicAlgebra.Poly
open SymbolicAlgebra.Expr Tally

variable {name : String} {p q r : Poly} {a e m : Expr} {c : Rat} {d n : ℕ}

theorem degreeLimit_lt : degreeLimit < exponentBound := by decide

theorem ofExpr?_pow (name : String) (bounded : d ≤ degreeLimit) :
    ofExpr? name (.pow (.var name) (.const d)) = some (monomial d 1) := by
  have small := bounded.trans_lt degreeLimit_lt
  have within : (monomial 1 1).degree * d ≤ degreeLimit :=
    ((Nat.mul_le_mul_right d (degree_monomial_le 1 1)).trans_eq (one_mul d)).trans bounded
  have power : (monomial 1 1).pow d = monomial d 1 := by
    apply toPolynomial_injective
    rw [toPolynomial_pow_of_le within, toPolynomial_symbol, toPolynomial_monomial small,
      Polynomial.monomial_pow, one_mul, one_pow]
  rw [ofExpr?_pow_eq_some]
  exact ⟨by simp [mentions], ⟨_, d, ofExpr?_var name, rfl, small, within, power⟩,
    (degree_monomial_le d 1).trans bounded⟩

theorem names_powerExpr (name : String) (d : ℕ) : (powerExpr name d).names = [name] := by
  rw [powerExpr]
  split <;> rfl

theorem ofExpr?_powerExpr (name : String) (bounded : d ≤ degreeLimit) :
    ofExpr? name (powerExpr name d) = some (monomial d 1) := by
  rw [powerExpr]
  split
  next one => rw [ofExpr?_var, one]
  next => exact ofExpr?_pow name bounded

theorem mentions_powerExpr (name : String) (d : ℕ) : (powerExpr name d).mentions name = true := by
  rw [mentions_iff, names_powerExpr]
  exact List.mem_singleton_self name

theorem ofExpr?_const_mul_powerExpr (name : String) (bounded : d ≤ degreeLimit) (c : Rat) :
    ofExpr? name (.mul (.const c) (powerExpr name d)) = some (monomial d c) := by
  have small := bounded.trans_lt degreeLimit_lt
  have read := ofExpr?_powerExpr name bounded
  have product : (const c).mul (monomial d 1) = monomial d c := by
    apply toPolynomial_injective
    rw [toPolynomial_mul_of_ofExpr? (ofExpr?_const name c) read, toPolynomial_const,
      toPolynomial_monomial small, Polynomial.C_mul_monomial, mul_one, toPolynomial_monomial small]
  rw [ofExpr?_mul_eq_some]
  exact ⟨by simp [mentions, mentions_powerExpr], ⟨_, _, ofExpr?_const name c, read, product⟩,
    (degree_monomial_le d c).trans bounded⟩

/-- The shapes of a multiple of a power of the symbol. -/
theorem multiple_powers_cases (name : String) (d_ne : d ≠ 0) (c_ne : c ≠ 0) :
    c = 1 ∧ multiple c (powers (.var name) d) = powerExpr name d ∨
      c = -1 ∧ multiple c (powers (.var name) d) = .neg (powerExpr name d) ∨
      multiple c (powers (.var name) d) = .mul (.const c) (powerExpr name d) := by
  have some_factor : powers (.var name) (d : Rat) ≠ [] := by
    rw [powers_eq name d_ne]
    exact List.cons_ne_nil _ _
  rw [← sortedProduct_powers name d_ne]
  obtain one | opposite | ⟨-, -, same⟩ := multiple_cases (isKey_powers name d).toIsMonic c_ne some_factor
  · exact .inl one
  · exact .inr (.inl opposite)
  · exact .inr (.inr same)

theorem names_multiple (name : String) (d_ne : d ≠ 0) (c_ne : c ≠ 0) :
    (multiple c (powers (.var name) d)).names = [name] := by
  obtain ⟨-, same⟩ | ⟨-, same⟩ | same := multiple_powers_cases name d_ne c_ne
  all_goals
    rw [same]
    exact names_powerExpr name d

theorem ofExpr?_multiple (name : String) (bounded : d ≤ degreeLimit) (c_ne : c ≠ 0) :
    ofExpr? name (multiple c (powers (.var name) d)) = some (monomial d c) := by
  by_cases d_ne : d = 0
  · subst d_ne
    rw [Nat.cast_zero, powers_zero, multiple_nil, ofExpr?_const]
    rfl
  have read := ofExpr?_powerExpr name bounded
  obtain ⟨rfl, same⟩ | ⟨rfl, same⟩ | same := multiple_powers_cases name d_ne c_ne
  · rw [same, read]
  · rw [same, ofExpr?_neg_eq_some]
    exact ⟨_, read, neg_monomial d 1⟩
  · rw [same, ofExpr?_const_mul_powerExpr name bounded]

/-- Sums of powers of a symbol up to a degree. -/
abbrev SumOfPowers (name : String) (limit : ℕ) : Expr → Prop :=
  SumOf fun l => ∃ d ≤ limit, l = powers (.var name) d

/-- The amounts of a sum are those of its terms. -/
theorem weighted_amounts_add (w : List Expr → ℚ) (d : ℕ) (c_ne : c ≠ 0) (a : Expr) :
    weighted w (Expr.add a (multiple c (powers (.var name) d))).amounts =
      weighted w a.amounts + c * w (powers (.var name) d) := by
  have key := isKey_powers name d
  have split : (Expr.add a (multiple c (powers (.var name) d))).amounts =
      a.amounts ++ [(powers (.var name) d, c)] := by
    change (a.terms ++ (multiple c (powers (.var name) d)).terms).filterMap likeTerm? = _
    rw [List.filterMap_append, key.terms_multiple, List.filterMap_cons, key.likeTerm?_multiple c_ne]
    rfl
  rw [split, weighted_append, weighted_cons, Rat.cast_id, weighted_nil, add_zero]

theorem weighted_amounts_multiple (w : List Expr → ℚ) (d : ℕ) (c_ne : c ≠ 0) :
    weighted w (multiple c (powers (.var name) d)).amounts = c * w (powers (.var name) d) := by
  have key := isKey_powers name d
  rw [Expr.amounts, key.terms_multiple, List.filterMap_cons, key.likeTerm?_multiple c_ne]
  simp

/-- Only numbers leave the symbol out. -/
theorem names_sumOfPowers {limit : ℕ} (h : SumOfPowers name limit e) :
    (∀ n ∈ e.names, n = name) ∧ (e.names = [] → ∃ c, e = .const c) := by
  have term {d : ℕ} {c : Rat} (c_ne : c ≠ 0) :
      (∀ n ∈ (multiple c (powers (.var name) d)).names, n = name) ∧
        ((multiple c (powers (.var name) d)).names = [] →
          multiple c (powers (.var name) d) = .const c) := by
    by_cases d_ne : d = 0
    · subst d_ne
      rw [Nat.cast_zero, powers_zero, multiple_nil]
      exact ⟨List.forall_mem_nil _, fun _ => rfl⟩
    · rw [names_multiple name d_ne c_ne]
      exact ⟨List.forall_mem_singleton.mpr rfl, nofun⟩
  induction h with
  | zero => exact ⟨List.forall_mem_nil _, fun _ => ⟨0, rfl⟩⟩
  | multiple proper c_ne =>
      obtain ⟨d, -, rfl⟩ := proper
      exact ⟨(term c_ne).1, fun none => ⟨_, (term c_ne).2 none⟩⟩
  | add _ proper c_ne last ih =>
      obtain ⟨d, -, rfl⟩ := proper
      refine ⟨List.forall_mem_append.mpr ⟨ih.1, (term c_ne).1⟩, fun none => ?_⟩
      obtain ⟨left, right⟩ := List.append_eq_nil_iff.mp none
      obtain ⟨k, rfl⟩ := ih.2 left
      rw [(term c_ne).2 right, const_plus_const] at last
      cases last

theorem mentions_add {limit : ℕ} (h : SumOfPowers name limit (.add a m)) :
    (Expr.add a m).mentions name = true := by
  obtain ⟨only, number⟩ := names_sumOfPowers h
  rw [mentions_iff]
  cases listed : (Expr.add a m).names with
  | nil =>
      obtain ⟨c, shape⟩ := number listed
      cases shape
  | cons n rest =>
      have := only n (listed ▸ .head _)
      exact this ▸ .head _

theorem ofExpr?_sumOfPowers (h : SumOfPowers name degreeLimit e) :
    ∃ r, ofExpr? name e = some r ∧ (∀ n, r.coeff n = weighted (coefficientAt name n) e.amounts) ∧
      ∀ n, degreeLimit < n → r.coeff n = 0 := by
  have monomialAt {d : ℕ} (bounded : d ≤ degreeLimit) (c : Rat) (n : ℕ) :
      (monomial d c).coeff n = c * coefficientAt name n (powers (.var name) d) := by
    rw [coeff_monomial (bounded.trans_lt degreeLimit_lt), coefficientAt_powers, mul_ite, mul_one, mul_zero]
  induction h with
  | zero => exact ⟨const 0, ofExpr?_const name 0, fun n => rfl, fun n _ => rfl⟩
  | multiple proper c_ne =>
      obtain ⟨d, bounded, rfl⟩ := proper
      refine ⟨_, ofExpr?_multiple name bounded c_ne, fun n => ?_, fun n above => ?_⟩
      · rw [monomialAt bounded, weighted_amounts_multiple _ d c_ne]
      · exact coeff_eq_zero_of_degree_lt (((degree_monomial_le d _).trans bounded).trans_lt above)
  | @add a l c written proper c_ne last ih =>
      have symbol := mentions_add (.add written proper c_ne last)
      obtain ⟨r, read, coeffs, high⟩ := ih
      obtain ⟨d, bounded, rfl⟩ := proper
      have high_add : ∀ n, degreeLimit < n → (r.add (monomial d c)).coeff n = 0 := by
        intro n above
        rw [coeff_add, high n above, zero_add]
        exact coeff_eq_zero_of_degree_lt (((degree_monomial_le d c).trans bounded).trans_lt above)
      refine ⟨r.add (monomial d c), ?_, fun n => ?_, high_add⟩
      · rw [ofExpr?_add_eq_some]
        exact ⟨symbol, ⟨r, _, read, ofExpr?_multiple name bounded c_ne, rfl⟩, degree_le_of_coeff high_add⟩
      · rw [coeff_add, coeffs, monomialAt bounded, weighted_amounts_add _ d c_ne]

/-- Up to the limit of the degree a polynomial can be read back. -/
theorem ofExpr?_simplified (name : String) (bounded : p.degree ≤ degreeLimit) :
    ofExpr? name (p.simplified name) = some p := by
  have written : SumOfPowers name degreeLimit (p.simplified name) := by
    refine (sumOf_simplified name p).imp ?_
    rintro l ⟨d, le, rfl⟩
    exact ⟨d, le.trans bounded, rfl⟩
  obtain ⟨r, read, coeffs, -⟩ := ofExpr?_sumOfPowers written
  rw [read]
  congr 1
  apply eq_of_coeff
  intro n
  rw [coeffs, weighted_simplified]

/-- The symbol is the only one, and it is there unless the polynomial is a constant. -/
theorem names_simplified (name : String) (p : Poly) :
    (∀ n ∈ (p.simplified name).names, n = name) ∧
      (p.degree ≠ 0 → (p.simplified name).names ≠ []) := by
  obtain ⟨only, number⟩ := names_sumOfPowers (sumOf_simplified name p)
  refine ⟨only, fun degree_ne none => degree_ne ?_⟩
  obtain ⟨c, shape⟩ := number none
  have constant : p = const c := by
    apply simplified_injective name
    rw [shape, simplified_const]
  rw [constant]
  exact Nat.le_zero.mp (degree_monomial_le 0 c)

/-- The opposite of the expression is read as the opposite polynomial. -/
theorem ofExpr?_negate_simplified (name : String) (bounded : p.degree ≤ degreeLimit) :
    ofExpr? name (p.simplified name).negate = some p.neg := by
  rcases simplified_cases name p with rfl | ⟨d, c, small, c_ne, rfl⟩ | sum
  · exact ofExpr?_const name (-0)
  · rw [degree_monomial small c_ne] at bounded
    rw [simplified_monomial name small, negate_multiple (isKey_powers name d).toIsMonic,
      ofExpr?_multiple name bounded (neg_ne_zero.mpr c_ne), neg_monomial]
  · rw [negate_of_isFactor (isFactor_of_isBase (isBase_of_isSum sum)), ofExpr?_neg_eq_some]
    exact ⟨p, ofExpr?_simplified name bounded, rfl⟩

theorem symbols_eq_singleton (only : ∀ n ∈ e.names, n = name) (some_name : e.names ≠ []) :
    e.symbols = [name] := by
  rw [symbols]
  generalize e.names = names at only some_name
  induction names with
  | nil => exact absurd rfl some_name
  | cons n rest ih =>
      obtain ⟨rfl, others⟩ := List.forall_mem_cons.mp only
      rw [List.foldr_cons]
      by_cases last : rest = []
      · rw [last]
        rfl
      · rw [ih others last, insertName, if_neg (String.lt_irrefl n), if_pos rfl]

theorem raisesCompound_simplified (name : String) (p : Poly) :
    (p.simplified name).raisesCompound = false := by
  have term {d : ℕ} {c : Rat} (c_ne : c ≠ 0) :
      (multiple c (powers (.var name) d)).raisesCompound = false := by
    by_cases d_ne : d = 0
    · subst d_ne
      rw [Nat.cast_zero, powers_zero, multiple_nil]
      rfl
    have power : (powerExpr name d).raisesCompound = false := by
      rw [powerExpr]
      split <;> rfl
    obtain ⟨-, same⟩ | ⟨-, same⟩ | same := multiple_powers_cases name d_ne c_ne
    all_goals
      rw [same]
      exact power
  have written := sumOf_simplified name p
  generalize p.simplified name = e at written
  induction written with
  | zero => rfl
  | multiple proper c_ne =>
      obtain ⟨d, -, rfl⟩ := proper
      exact term c_ne
  | add _ proper c_ne _ ih =>
      obtain ⟨d, -, rfl⟩ := proper
      rw [raisesCompound, ih, term c_ne]
      rfl

/-- A linear form in the symbol, or in none, with the given coefficients. -/
structure HasCoefficients (name : String) (f : LinearForm) (w : ℕ → Rat) : Prop where
  symbol : f.symbol = none ∧ f.slope = 0 ∨ f.symbol = some name
  coeff (n : ℕ) : w n = if n = 1 then f.slope else if n = 0 then f.offset else 0

theorem HasCoefficients.constant (name : String) (q : Rat) :
    HasCoefficients name ⟨0, q, none⟩ fun n => q * if 0 = n then 1 else 0 := by
  refine ⟨.inl ⟨rfl, rfl⟩, fun n => ?_⟩
  rcases n with _ | _ | n <;> simp

theorem HasCoefficients.linear (name : String) (q : Rat) :
    HasCoefficients name ⟨q, 0, some name⟩ fun n => q * if 1 = n then 1 else 0 := by
  refine ⟨.inr rfl, fun n => ?_⟩
  rcases n with _ | _ | n <;> simp

theorem HasCoefficients.add {f l m : LinearForm} {v w : ℕ → Rat} (h : HasCoefficients name l v)
    (k : HasCoefficients name m w) (added : l.add? m = some f) :
    HasCoefficients name f fun n => v n + w n := by
  have sum : (f.symbol = none ∧ f.slope = 0 ∨ f.symbol = some name) ∧
      f.slope = l.slope + m.slope ∧ f.offset = l.offset + m.offset := by
    rw [LinearForm.add?] at added
    rcases h.symbol with ⟨none, flat⟩ | some_name <;> rcases k.symbol with ⟨none', flat'⟩ | some_name'
    · rw [none, none'] at added
      obtain rfl := Option.some.inj added
      exact ⟨.inl ⟨rfl, by rw [flat, flat', add_zero]⟩, rfl, rfl⟩
    · rw [none, some_name'] at added
      obtain rfl := Option.some.inj added
      exact ⟨.inr rfl, rfl, rfl⟩
    · rw [some_name, none'] at added
      obtain rfl := Option.some.inj added
      exact ⟨.inr rfl, rfl, rfl⟩
    · rw [some_name, some_name'] at added
      dsimp only at added
      rw [if_pos rfl] at added
      obtain rfl := Option.some.inj added
      exact ⟨.inr rfl, rfl, rfl⟩
  obtain ⟨symbol, slope, offset⟩ := sum
  refine ⟨symbol, fun n => ?_⟩
  rw [h.coeff, k.coeff, slope, offset]
  rcases n with _ | _ | n <;> simp

/-- Only a number and a multiple of the symbol are read as linear forms. -/
theorem linearForm_multiple_powers {d : ℕ} {f : LinearForm} (c_ne : c ≠ 0)
    (read : LinearForm.ofExpr? (multiple c (powers (.var name) d)) = some f) :
    HasCoefficients name f fun n => c * coefficientAt name n (powers (.var name) d) := by
  simp only [coefficientAt_powers]
  by_cases d_ne : d = 0
  · subst d_ne
    rw [Nat.cast_zero, powers_zero, multiple_nil] at read
    obtain rfl := Option.some.inj read
    exact .constant name c
  by_cases one : d = 1
  · subst one
    obtain rfl : f = ⟨c, 0, some name⟩ := by
      obtain ⟨rfl, same⟩ | ⟨rfl, same⟩ | same := multiple_powers_cases name d_ne c_ne <;>
        rw [same] at read
      · exact (Option.some.inj read).symm
      · exact (Option.some.inj read).symm
      · exact (Option.some.inj read).symm
    exact .linear name c
  · have power : powerExpr name d = .pow (.var name) (.const d) := if_neg one
    obtain ⟨-, same⟩ | ⟨-, same⟩ | same := multiple_powers_cases name d_ne c_ne <;>
      rw [same, power] at read <;> cases read

/-- A linear form that is read from a sum of powers has the coefficients of the sum. -/
theorem linearForm_sumOfPowers {limit : ℕ} {f : LinearForm} (h : SumOfPowers name limit e)
    (read : LinearForm.ofExpr? e = some f) :
    HasCoefficients name f fun n => weighted (coefficientAt name n) e.amounts := by
  induction h generalizing f with
  | zero =>
      obtain rfl := Option.some.inj read
      refine ⟨.inl ⟨rfl, rfl⟩, fun n => ?_⟩
      rcases n with _ | _ | n <;> rfl
  | multiple proper c_ne =>
      obtain ⟨d, -, rfl⟩ := proper
      simp only [weighted_amounts_multiple _ _ c_ne]
      exact linearForm_multiple_powers c_ne read
  | add _ proper c_ne _ ih =>
      obtain ⟨d, -, rfl⟩ := proper
      simp only [weighted_amounts_add _ _ c_ne]
      obtain ⟨l, left, tail⟩ := Option.bind_eq_some_iff.mp read
      obtain ⟨m, right, added⟩ := Option.bind_eq_some_iff.mp tail
      exact (ih left).add (linearForm_multiple_powers c_ne right) added

end SymbolicAlgebra.Poly
