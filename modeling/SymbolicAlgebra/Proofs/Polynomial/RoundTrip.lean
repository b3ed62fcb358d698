import Mathlib.Algebra.CharZero.Infinite
import Mathlib.Algebra.Polynomial.Roots
import SymbolicAlgebra.Proofs.Polynomial.Reading
import SymbolicAlgebra.Proofs.Valuation.Polynomial
import SymbolicAlgebra.Proofs.Valuation.Rational

/-! Writing a polynomial as an expression and reading it again. What is read has the value of
the polynomial everywhere, so it can be no other polynomial. It is read up to the limit of
the degree, term by term. -/

namespace SymbolicAlgebra.Poly
open Polynomial SymbolicAlgebra.Expr

variable {name : String} {e : Expr} {p q : Poly} {t : ℕ × ℚ} {terms : List (ℕ × ℚ)}

theorem eq_of_ofExpr?_toExpr (read : ofExpr? name (p.toExpr name) = some q) : q = p := by
  apply toPolynomial_injective
  apply Polynomial.funext
  intro x
  have written : (RationalArithmetic.valuation x).Means (p.toExpr name) (p.toPolynomial.eval x) :=
    Valuation.means_toExpr
  exact (Valuation.means_of_ofExpr? read).unique written

theorem mentions_termExpr (positive : t.1 ≠ 0) : (termExpr name t).mentions name = true := by
  have power : (if t.1 = 1 then Expr.var name else .pow (.var name) (.const t.1)).mentions name = true :=
    mentions_powerExpr name t.1
  rw [termExpr, if_neg positive]
  dsimp only
  split
  · exact power
  · rw [mentions, power]
    rfl

theorem ofExpr?_termExpr (bounded : t.1 ≤ degreeLimit) :
    ofExpr? name (termExpr name t) = some (monomial t.1 t.2) := by
  rw [termExpr]
  split
  next constant => rw [ofExpr?_const, constant, const]
  next =>
    dsimp only
    split
    next one =>
      rw [one]
      exact ofExpr?_powerExpr name bounded
    next => exact ofExpr?_const_mul_powerExpr name bounded t.2

theorem degree_add_monomial_le {d limit : ℕ} {c : ℚ} (h : p.degree ≤ limit) (bounded : d ≤ limit) :
    (p.add (monomial d c)).degree ≤ limit := by
  have term := (degree_monomial_le d c).trans bounded
  rw [degree_eq] at h term ⊢
  rw [toPolynomial_add]
  exact natDegree_add_le_of_degree_le h term

/-- Behind the first term each term has the symbol, so a sum of terms is no mere literal. -/
theorem exists_ofExpr?_foldl (bounded : ∀ t ∈ terms, t.1 ≠ 0 ∧ t.1 ≤ degreeLimit)
    (read : ofExpr? name e = some p) :
    ∃ q, ofExpr? name ((terms.map (termExpr name)).foldl .add e) = some q := by
  induction terms generalizing e p with
  | nil => exact ⟨p, read⟩
  | cons t rest ih =>
      obtain ⟨⟨positive, within⟩, others⟩ := List.forall_mem_cons.mp bounded
      have mentioned : (Expr.add e (termExpr name t)).mentions name = true := by
        rw [mentions, mentions_termExpr positive, Bool.or_true]
      have degree := degree_add_monomial_le (c := t.2) (degree_le_of_ofExpr? read) within
      have sum : ofExpr? name (.add e (termExpr name t)) = some (p.add (monomial t.1 t.2)) :=
        ofExpr?_add_eq_some.mpr ⟨mentioned, ⟨p, _, read, ofExpr?_termExpr within, rfl⟩, degree⟩
      exact ih others sum

theorem exists_ofExpr?_toExpr (name : String) (bounded : p.degree ≤ degreeLimit) :
    ∃ q, ofExpr? name (p.toExpr name) = some q := by
  have within : ∀ t ∈ p.terms, t.1 ≤ degreeLimit := fun t member => (degree_le_of_mem member).trans bounded
  have ascending := p.ascending
  rw [toExpr_eq_sum]
  generalize p.terms = terms at within ascending
  cases terms with
  | nil => exact ⟨const 0, ofExpr?_const name 0⟩
  | cons first rest =>
      obtain ⟨least, -⟩ := List.pairwise_cons.mp ascending
      obtain ⟨small, others⟩ := List.forall_mem_cons.mp within
      refine exists_ofExpr?_foldl (fun t member => ⟨?_, others t member⟩) (ofExpr?_termExpr small)
      exact Nat.ne_zero_of_lt (least t member)

/-- A polynomial is read back from the expression that is written for it, unless its degree is
beyond the limit. Then nothing is read. -/
theorem written_polynomial_is_read_back (name : String) (p : Poly) :
    ofExpr? name (p.toExpr name) = if p = zero ∨ p.degree ≤ 256 then some p else none := by
  split
  next small =>
    have bounded : p.degree ≤ degreeLimit := by
      rcases small with rfl | bounded
      · exact Nat.zero_le _
      · exact bounded
    obtain ⟨q, read⟩ := exists_ofExpr?_toExpr name bounded
    rw [read, eq_of_ofExpr?_toExpr read]
  next large =>
    cases read : ofExpr? name (p.toExpr name) with
    | none => rfl
    | some q =>
        have bounded := degree_le_of_ofExpr? read
        rw [eq_of_ofExpr?_toExpr read] at bounded
        exact absurd (.inr bounded) large

end SymbolicAlgebra.Poly
