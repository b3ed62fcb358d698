import Mathlib.Algebra.Algebra.Rat
import SymbolicAlgebra.Arithmetic.Sum
import SymbolicAlgebra.Proofs.Polynomial.Denotation
import SymbolicAlgebra.Proofs.Polynomial.Division
import SymbolicAlgebra.Proofs.Valuation.Sum

/-! An expression that is read as a polynomial has the value of the polynomial, under
every valuation, and so has the expression that is written for a polynomial. -/

namespace SymbolicAlgebra.Valuation
open Polynomial

variable {K : Type*} [Field K]

section

variable [DecidableEq K] {V : Valuation K} {e : Expr}

theorem means_literal? {q : ℚ} (h : e.literal? = some q) : V.Means e q := by
  induction e generalizing q with
  | const r =>
      obtain rfl := Option.some.inj h
      exact (means_const r).mpr rfl
  | neg a ih =>
      obtain ⟨r, inner, rfl⟩ := Option.map_eq_some_iff.mp h
      simpa using (ih inner).neg
  | _ => cases h

theorem means_termExpr (name : String) (t : ℕ × ℚ) :
    V.Means (Poly.termExpr name t) (t.2 * V.symbol name ^ t.1) := by
  have symbol : V.Means (.var name) (V.symbol name) := (means_var name).mpr rfl
  have power : V.Means (if t.1 = 1 then .var name else .pow (.var name) (.const t.1))
      (V.symbol name ^ t.1) := by
    split
    next one => rwa [one, pow_one]
    next => exact symbol.pow ((means_const _).mpr (Rat.cast_natCast t.1)) (V.power_nat _ t.1)
  rw [Poly.termExpr]
  split
  next zero => simp [zero]
  next =>
    dsimp only
    split
    next one => rwa [one, Rat.cast_one, one_mul]
    next => exact Means.mul ((means_const _).mpr rfl) power

end

variable [CharZero K]

/-- The value of a polynomial in the named symbol. -/
noncomputable def polyValue (V : Valuation K) (name : String) (p : Poly) : K :=
  aeval (V.symbol name) p.toPolynomial

variable {V : Valuation K} {name : String} {p q d : Poly} {e : Expr} {x : K}

theorem aeval_constant (c : ℚ) : aeval x (C c : ℚ[X]) = (c : K) := by
  rw [aeval_C, eq_ratCast]

theorem polyValue_monic : p.leadingCoeff * V.polyValue name p.monic = V.polyValue name p := by
  have product := congrArg (aeval (V.symbol name)) p.leadingCoeff_mul_monic
  rwa [map_mul, aeval_constant] at product

theorem polyValue_of_isZero (h : p.isZero = true) : V.polyValue name p = 0 := by
  rw [Poly.eq_zero_of_isZero h, polyValue, Poly.toPolynomial_zero, map_zero]

theorem polyValue_exactQuotient? (exact : p.exactQuotient? d = some q) :
    V.polyValue name q * V.polyValue name d = V.polyValue name p := by
  rw [polyValue, polyValue, polyValue, ← map_mul, Poly.exactQuotient?_identity exact]

variable [DecidableEq K]

/-- What denotes a polynomial has its value. -/
theorem means_of_denotes {f : ℚ[X]} (h : Poly.Denotes name e f) :
    V.Means e (aeval (V.symbol name) f) := by
  induction h with
  | symbol => exact (means_var name).mpr (aeval_X _).symm
  | const c => exact (means_const c).mpr (aeval_constant c).symm
  | neg _ ih =>
      rw [map_neg]
      exact ih.neg
  | add _ _ iha ihb =>
      rw [map_add]
      exact iha.add ihb
  | sub _ _ iha ihb =>
      rw [map_sub]
      exact iha.sub ihb
  | mul _ _ iha ihb =>
      rw [map_mul]
      exact iha.mul ihb
  | div _ divisor c_ne ih =>
      rw [map_mul, aeval_constant, Rat.cast_inv, mul_comm, ← div_eq_mul_inv]
      exact means_div.mpr ⟨_, _, ih, means_literal? divisor, Rat.cast_ne_zero.mpr c_ne, rfl⟩
  | @pow _ _ _ k _ exponent _ ih =>
      have power := means_literal? (V := V) exponent
      rw [Rat.cast_natCast] at power
      rw [map_pow]
      exact ih.pow power (V.power_nat _ k)

theorem means_of_ofExpr? (h : Poly.ofExpr? name e = some p) : V.Means e (V.polyValue name p) :=
  means_of_denotes (Poly.denotes_of_ofExpr? h)

theorem means_toExpr : V.Means (p.toExpr name) (V.polyValue name p) := by
  have terms (l : List (ℕ × ℚ)) : V.MeansSum (l.map (Poly.termExpr name))
      (aeval (V.symbol name) (Poly.sumOfTerms l)) := by
    induction l with
    | nil => simpa using meansSum_nil
    | cons t rest ih =>
        refine meansSum_cons.mpr ⟨_, _, means_termExpr name t, ih, ?_⟩
        rw [Poly.sumOfTerms_cons, map_add, aeval_monomial, eq_ratCast]
  have sum := (terms p.terms).sum
  rw [Poly.toExpr]
  split
  next nothing => rwa [nothing] at sum
  next first rest some_terms => rwa [some_terms] at sum

end SymbolicAlgebra.Valuation
