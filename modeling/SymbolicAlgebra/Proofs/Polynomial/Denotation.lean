import SymbolicAlgebra.Polynomial.Expression
import SymbolicAlgebra.Proofs.Number
import SymbolicAlgebra.Proofs.Polynomial.Product

/-! The polynomial that an expression in one symbol denotes, and what reading finds in an
expression of each form: the polynomials of the operands, if the symbol is mentioned and
the degree of the result is within the limit. -/

namespace SymbolicAlgebra.Poly
open Polynomial

/-- What is built from the symbol and constants denotes a polynomial. Divisors and exponents
are literals. -/
inductive Denotes (name : String) : Expr → ℚ[X] → Prop where
  | symbol : Denotes name (.var name) X
  | const (c : ℚ) : Denotes name (.const c) (C c)
  | neg {a : Expr} {f : ℚ[X]} (h : Denotes name a f) : Denotes name (.neg a) (-f)
  | add {a b : Expr} {f g : ℚ[X]} (h : Denotes name a f) (k : Denotes name b g) :
      Denotes name (.add a b) (f + g)
  | sub {a b : Expr} {f g : ℚ[X]} (h : Denotes name a f) (k : Denotes name b g) :
      Denotes name (.sub a b) (f - g)
  | mul {a b : Expr} {f g : ℚ[X]} (h : Denotes name a f) (k : Denotes name b g) :
      Denotes name (.mul a b) (f * g)
  | div {a b : Expr} {f : ℚ[X]} {c : ℚ} (h : Denotes name a f) (divisor : b.literal? = some c)
      (c_ne : c ≠ 0) : Denotes name (.div a b) (C c⁻¹ * f)
  | pow {a b : Expr} {f : ℚ[X]} {k : ℕ} (h : Denotes name a f) (exponent : b.literal? = some (k : ℚ))
      (small : k < exponentBound) : Denotes name (.pow a b) (f ^ k)

variable {name : String} {a b e : Expr} {p : Poly} {f g : ℚ[X]} {c : Rat} {k : ℕ}

theorem Denotes.unique (h : Denotes name e f) (k : Denotes name e g) : f = g := by
  induction h generalizing g with
  | symbol => cases k; rfl
  | const => cases k; rfl
  | neg _ ih =>
      cases k with
      | neg k => rw [ih k]
  | add _ _ iha ihb =>
      cases k with
      | add k l => rw [iha k, ihb l]
  | sub _ _ iha ihb =>
      cases k with
      | sub k l => rw [iha k, ihb l]
  | mul _ _ iha ihb =>
      cases k with
      | mul k l => rw [iha k, ihb l]
  | div _ divisor _ ih =>
      cases k with
      | div k other => rw [ih k, Option.some.inj (divisor.symm.trans other)]
  | pow _ exponent _ ih =>
      cases k with
      | pow k other =>
          have same := Option.some.inj (exponent.symm.trans other)
          rw [ih k, Nat.cast_injective same]

theorem names_of_literal? (h : e.literal? = some c) : e.names = [] := by
  induction e generalizing c with
  | const q => rfl
  | neg a ih =>
      obtain ⟨q, inner, -⟩ := Option.map_eq_some_iff.mp h
      exact ih inner
  | _ => cases h

/-- No other symbol occurs. -/
theorem Denotes.names (h : Denotes name e f) : ∀ n ∈ e.names, n = name := by
  induction h with
  | symbol => exact List.forall_mem_singleton.mpr rfl
  | const => exact List.forall_mem_nil _
  | neg _ ih => exact ih
  | add _ _ iha ihb | sub _ _ iha ihb | mul _ _ iha ihb => exact List.forall_mem_append.mpr ⟨iha, ihb⟩
  | div _ literal _ ih | pow _ literal _ ih =>
      rw [Expr.names, names_of_literal? literal, List.append_nil]
      exact ih

theorem exponent?_eq_some : exponent? e = some k ↔ e.literal? = some (k : ℚ) ∧ k < exponentBound := by
  rw [exponent?]
  split
  next q isLiteral =>
    rw [isLiteral, Option.some_inj]
    constructor
    · intro h
      split at h
      next natural =>
        obtain rfl := Option.some.inj h
        simp only [Bool.and_eq_true, decide_eq_true_eq] at natural
        obtain ⟨⟨integer, nonneg⟩, small⟩ := natural
        obtain ⟨m, rfl⟩ := exists_int_of_isInt integer
        obtain ⟨n, rfl⟩ := Int.eq_ofNat_of_zero_le (by simpa using nonneg)
        exact ⟨by simp, small⟩
      next => cases h
    · rintro ⟨rfl, small⟩
      have integer : (k : ℚ).isInt = true := by simp [Rat.isInt]
      simp [integer, small]
  next noLiteral => simp [noLiteral]

theorem bounded?_eq_some {q : Poly} : p.bounded? = some q ↔ p = q ∧ q.degree ≤ degreeLimit := by
  rw [bounded?]
  split
  next small =>
    rw [Option.some_inj]
    exact ⟨fun same => ⟨same, same ▸ small⟩, And.left⟩
  next large =>
    refine ⟨nofun, ?_⟩
    rintro ⟨rfl, small⟩
    exact absurd small large

theorem degree_const (c : Rat) : (const c).degree = 0 := by
  rw [degree_eq, toPolynomial_const, natDegree_C]

theorem degree_le_of_ofExpr? (h : ofExpr? name e = some p) : p.degree ≤ degreeLimit := by
  unfold ofExpr? at h
  split at h
  next =>
    obtain ⟨q, -, bounded⟩ := Option.bind_eq_some_iff.mp h
    exact (bounded?_eq_some.mp bounded).2
  next =>
    obtain ⟨c, -, rfl⟩ := Option.map_eq_some_iff.mp h
    rw [degree_const]
    exact Nat.zero_le _

theorem ofExpr?_of_not_mentions (h : e.mentions name = false) :
    ofExpr? name e = e.literal?.map const := by
  unfold ofExpr?
  rw [if_neg (by simp [h])]

theorem ofExpr?_const (name : String) (c : Rat) : ofExpr? name (.const c) = some (const c) :=
  ofExpr?_of_not_mentions rfl

/-- Nothing but a literal is read where the symbol is absent. -/
theorem reading_eq_some {read : Option Poly} (noLiteral : e.literal? = none)
    (same : ofExpr? name e = if e.mentions name then read.bind bounded? else e.literal?.map const) :
    ofExpr? name e = some p ↔ e.mentions name = true ∧ read = some p ∧ p.degree ≤ degreeLimit := by
  rw [same]
  split
  next mentioned => simp [mentioned, Option.bind_eq_some_iff, bounded?_eq_some]
  next absent => simp [absent, noLiteral]

theorem ofExpr?_var_eq_some {other : String} :
    ofExpr? name (.var other) = some p ↔ other = name ∧ monomial 1 1 = p := by
  rw [reading_eq_some rfl rfl, Expr.mentions, decide_eq_true_eq, Option.some_inj]
  refine and_congr_right' (and_iff_left_of_imp ?_)
  rintro rfl
  exact (degree_monomial_le 1 1).trans (by decide)

theorem ofExpr?_var (name : String) : ofExpr? name (.var name) = some (monomial 1 1) :=
  ofExpr?_var_eq_some.mpr ⟨rfl, rfl⟩

theorem degree_neg (p : Poly) : p.neg.degree = p.degree := by
  rw [degree_eq, toPolynomial_neg, natDegree_neg, degree_eq]

theorem ofExpr?_neg_eq_some :
    ofExpr? name (.neg a) = some p ↔ ∃ q, ofExpr? name a = some q ∧ q.neg = p := by
  cases mentioned : a.mentions name with
  | true =>
      rw [ofExpr?, Expr.mentions, if_pos mentioned]
      simp only [Option.bind_eq_some_iff, Option.map_eq_some_iff, bounded?_eq_some]
      constructor
      · rintro ⟨_, ⟨q, read, rfl⟩, rfl, -⟩
        exact ⟨q, read, rfl⟩
      · rintro ⟨q, read, rfl⟩
        exact ⟨_, ⟨q, read, rfl⟩, rfl, (degree_neg q).trans_le (degree_le_of_ofExpr? read)⟩
  | false =>
      have opposite (c : Rat) : (const c).neg = const (-c) := by
        apply toPolynomial_injective
        rw [toPolynomial_neg, toPolynomial_const, toPolynomial_const, C_neg]
      rw [ofExpr?_of_not_mentions mentioned, ofExpr?_of_not_mentions (e := .neg a) mentioned, Expr.literal?]
      simp [Option.map_eq_some_iff, opposite]

theorem both_read {f : Poly → Poly → Poly} :
    ((ofExpr? name a).bind fun q => (ofExpr? name b).map (f q)) = some p ↔
      ∃ q r, ofExpr? name a = some q ∧ ofExpr? name b = some r ∧ f q r = p := by
  simp [Option.bind_eq_some_iff, Option.map_eq_some_iff]

theorem ofExpr?_add_eq_some : ofExpr? name (.add a b) = some p ↔
    (Expr.add a b).mentions name = true ∧
      (∃ q r, ofExpr? name a = some q ∧ ofExpr? name b = some r ∧ q.add r = p) ∧
      p.degree ≤ degreeLimit := by
  rw [reading_eq_some rfl rfl, both_read]

theorem ofExpr?_sub_eq_some : ofExpr? name (.sub a b) = some p ↔
    (Expr.sub a b).mentions name = true ∧
      (∃ q r, ofExpr? name a = some q ∧ ofExpr? name b = some r ∧ q.sub r = p) ∧
      p.degree ≤ degreeLimit := by
  rw [reading_eq_some rfl rfl, both_read]

theorem ofExpr?_mul_eq_some : ofExpr? name (.mul a b) = some p ↔
    (Expr.mul a b).mentions name = true ∧
      (∃ q r, ofExpr? name a = some q ∧ ofExpr? name b = some r ∧ q.mul r = p) ∧
      p.degree ≤ degreeLimit := by
  rw [reading_eq_some rfl rfl, both_read]

theorem ofExpr?_div_eq_some : ofExpr? name (.div a b) = some p ↔
    (Expr.div a b).mentions name = true ∧
      (∃ q c, ofExpr? name a = some q ∧ b.literal? = some c ∧ c ≠ 0 ∧ q.scale c⁻¹ = p) ∧
      p.degree ≤ degreeLimit := by
  rw [reading_eq_some rfl rfl]
  refine and_congr_right' (and_congr_left' ?_)
  split
  next d isLiteral =>
    by_cases d_zero : d = 0 <;> simp [isLiteral, d_zero, Option.map_eq_some_iff]
  next noLiteral => simp [noLiteral]

theorem ofExpr?_pow_eq_some : ofExpr? name (.pow a b) = some p ↔
    (Expr.pow a b).mentions name = true ∧
      (∃ q, ∃ k : ℕ, ofExpr? name a = some q ∧ b.literal? = some (k : ℚ) ∧ k < exponentBound ∧
        q.degree * k ≤ degreeLimit ∧ q.pow k = p) ∧
      p.degree ≤ degreeLimit := by
  rw [reading_eq_some rfl rfl]
  refine and_congr_right' (and_congr_left' ?_)
  simp only [Option.bind_eq_some_iff, exponent?_eq_some, boundedPow?, Option.ite_none_right_eq_some,
    Option.some_inj]
  constructor
  · rintro ⟨k, ⟨literal, small⟩, q, read, bounded, rfl⟩
    exact ⟨q, k, read, literal, small, bounded, rfl⟩
  · rintro ⟨q, k, read, literal, small, bounded, rfl⟩
    exact ⟨k, ⟨literal, small⟩, q, read, bounded, rfl⟩

theorem ofExpr?_app (head : Fn) : ofExpr? name (.app head a) ≠ some p := by
  rw [Ne, reading_eq_some rfl rfl]
  rintro ⟨-, read, -⟩
  cases read

/-- The limit of the degree keeps far below the bound of a machine word. -/
theorem toPolynomial_mul_of_ofExpr? {q r : Poly} (left : ofExpr? name a = some q)
    (right : ofExpr? name b = some r) : (q.mul r).toPolynomial = q.toPolynomial * r.toPolynomial := by
  apply toPolynomial_mul
  exact (Nat.add_le_add (degree_le_of_ofExpr? left) (degree_le_of_ofExpr? right)).trans_lt (by decide)

theorem toPolynomial_pow_of_le {q : Poly} {k : ℕ} (within : q.degree * k ≤ degreeLimit) :
    (q.pow k).toPolynomial = q.toPolynomial ^ k := by
  apply toPolynomial_pow
  rw [mul_comm]
  exact within.trans_lt (by decide)

/-- What is read is what the expression denotes. -/
theorem denotes_of_ofExpr? (h : ofExpr? name e = some p) : Denotes name e p.toPolynomial := by
  induction e generalizing p with
  | var other =>
      obtain ⟨rfl, rfl⟩ := ofExpr?_var_eq_some.mp h
      rw [toPolynomial_symbol, monomial_one_one_eq_X]
      exact .symbol
  | const c =>
      obtain rfl := Option.some.inj ((ofExpr?_const name c).symm.trans h)
      rw [toPolynomial_const]
      exact .const c
  | neg a ih =>
      obtain ⟨q, read, rfl⟩ := ofExpr?_neg_eq_some.mp h
      rw [toPolynomial_neg]
      exact .neg (ih read)
  | add a b iha ihb =>
      obtain ⟨-, ⟨q, r, left, right, rfl⟩, -⟩ := ofExpr?_add_eq_some.mp h
      rw [toPolynomial_add]
      exact .add (iha left) (ihb right)
  | sub a b iha ihb =>
      obtain ⟨-, ⟨q, r, left, right, rfl⟩, -⟩ := ofExpr?_sub_eq_some.mp h
      rw [toPolynomial_sub]
      exact .sub (iha left) (ihb right)
  | mul a b iha ihb =>
      obtain ⟨-, ⟨q, r, left, right, rfl⟩, -⟩ := ofExpr?_mul_eq_some.mp h
      rw [toPolynomial_mul_of_ofExpr? left right]
      exact .mul (iha left) (ihb right)
  | div a b ih =>
      obtain ⟨-, ⟨q, c, read, divisor, c_ne, rfl⟩, -⟩ := ofExpr?_div_eq_some.mp h
      rw [toPolynomial_scale]
      exact .div (ih read) divisor c_ne
  | pow a b ih =>
      obtain ⟨-, ⟨q, k, read, exponent, small, within, rfl⟩, -⟩ := ofExpr?_pow_eq_some.mp h
      rw [toPolynomial_pow_of_le within]
      exact .pow (ih read) exponent small
  | app f a => exact absurd h (ofExpr?_app f)
  | _ =>
      rw [ofExpr?_of_not_mentions rfl] at h
      cases h

end SymbolicAlgebra.Poly
