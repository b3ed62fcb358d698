import SymbolicAlgebra.Proofs.Expr.Parts
import SymbolicAlgebra.Proofs.Valuation.Polynomial
import SymbolicAlgebra.Proofs.Valuation.Rational

/-! Which expressions are read as a polynomial. They denote one, leave the symbol out in
literals alone, and have no part of too high a degree. -/

namespace SymbolicAlgebra.Poly
open Polynomial SymbolicAlgebra.Expr

variable {name : String} {a b e : Expr} {p : Poly} {f : ℚ[X]} {c : Rat}

/-- No part is more than a literal where it leaves the symbol out, and none denotes a
polynomial of too high a degree. -/
structure Readable (name : String) (e : Expr) : Prop where
  literal : ∀ a ∈ e.parts, a.mentions name = false → ∃ c, a.literal? = some c
  bounded : ∀ a ∈ e.parts, ∀ f, Denotes name a f → f.natDegree ≤ degreeLimit

namespace Readable

theorem part (h : Readable name e) (inside : ∀ x ∈ a.parts, x ∈ e.parts) : Readable name a where
  literal x member := h.literal x (inside x member)
  bounded x member := h.bounded x (inside x member)

theorem mentions (h : Readable name e) (noLiteral : e.literal? = none) : e.mentions name = true := by
  by_contra absent
  obtain ⟨c, isLiteral⟩ := h.literal e e.mem_parts_self (by simpa using absent)
  rw [noLiteral] at isLiteral
  cases isLiteral

theorem degree_le (h : Readable name e) (denotes : Denotes name e p.toPolynomial) :
    p.degree ≤ degreeLimit := by
  rw [degree_eq]
  exact h.bounded e e.mem_parts_self _ denotes

end Readable

/-- A readable expression that denotes a polynomial is read, part by part. -/
theorem exists_ofExpr? (h : Denotes name e f) (readable : Readable name e) :
    ∃ p, ofExpr? name e = some p ∧ p.toPolynomial = f := by
  have denoted := h
  induction h with
  | symbol => exact ⟨_, ofExpr?_var name, by rw [toPolynomial_symbol, monomial_one_one_eq_X]⟩
  | const c => exact ⟨_, ofExpr?_const name c, toPolynomial_const c⟩
  | neg h ih =>
      obtain ⟨q, read, rfl⟩ := ih (readable.part fun _ member => .tail _ member) h
      exact ⟨q.neg, ofExpr?_neg_eq_some.mpr ⟨q, read, rfl⟩, toPolynomial_neg q⟩
  | add h k iha ihb =>
      obtain ⟨q, left, rfl⟩ := iha (readable.part (parts_left rfl)) h
      obtain ⟨r, right, rfl⟩ := ihb (readable.part (parts_right rfl)) k
      rw [← toPolynomial_add] at denoted ⊢
      exact ⟨_, ofExpr?_add_eq_some.mpr ⟨readable.mentions rfl, ⟨q, r, left, right, rfl⟩,
        readable.degree_le denoted⟩, rfl⟩
  | sub h k iha ihb =>
      obtain ⟨q, left, rfl⟩ := iha (readable.part (parts_left rfl)) h
      obtain ⟨r, right, rfl⟩ := ihb (readable.part (parts_right rfl)) k
      rw [← toPolynomial_sub] at denoted ⊢
      exact ⟨_, ofExpr?_sub_eq_some.mpr ⟨readable.mentions rfl, ⟨q, r, left, right, rfl⟩,
        readable.degree_le denoted⟩, rfl⟩
  | mul h k iha ihb =>
      obtain ⟨q, left, rfl⟩ := iha (readable.part (parts_left rfl)) h
      obtain ⟨r, right, rfl⟩ := ihb (readable.part (parts_right rfl)) k
      rw [← toPolynomial_mul_of_ofExpr? left right] at denoted ⊢
      exact ⟨_, ofExpr?_mul_eq_some.mpr ⟨readable.mentions rfl, ⟨q, r, left, right, rfl⟩,
        readable.degree_le denoted⟩, rfl⟩
  | div h divisor c_ne ih =>
      obtain ⟨q, read, rfl⟩ := ih (readable.part (parts_left rfl)) h
      rw [← toPolynomial_scale] at denoted ⊢
      exact ⟨_, ofExpr?_div_eq_some.mpr ⟨readable.mentions rfl, ⟨q, _, read, divisor, c_ne, rfl⟩,
        readable.degree_le denoted⟩, rfl⟩
  | @pow a b _ k h exponent small ih =>
      obtain ⟨q, read, rfl⟩ := ih (readable.part (parts_left rfl)) h
      have product : q.degree * k ≤ degreeLimit := by
        have degree := readable.bounded _ (mem_parts_self _) _ denoted
        rwa [natDegree_pow, mul_comm, ← degree_eq] at degree
      rw [← toPolynomial_pow_of_le product] at denoted ⊢
      have degree := readable.degree_le denoted
      exact ⟨_, ofExpr?_pow_eq_some.mpr ⟨readable.mentions rfl, ⟨q, k, read, exponent, small, product, rfl⟩,
        degree⟩, rfl⟩

theorem not_mentions_literal (h : e.literal? = some c) : e.mentions name = false := by
  rw [← Bool.not_eq_true, mentions_iff, names_of_literal? h]
  exact List.not_mem_nil

theorem ofExpr?_literal (h : e.literal? = some c) : ofExpr? name e = some (const c) := by
  rw [ofExpr?_of_not_mentions (not_mentions_literal h), h]
  rfl

/-- What is read has been read in all parts. -/
theorem ofExpr?_parts (h : ofExpr? name e = some p) : ∀ a ∈ e.parts, ∃ q, ofExpr? name a = some q := by
  induction e generalizing p with
  | neg a ih =>
      obtain ⟨q, read, -⟩ := ofExpr?_neg_eq_some.mp h
      exact List.forall_mem_cons.mpr ⟨⟨p, h⟩, ih read⟩
  | add a b iha ihb =>
      obtain ⟨-, ⟨q, r, left, right, -⟩, -⟩ := ofExpr?_add_eq_some.mp h
      exact forall_operands ⟨p, h⟩ (iha left) (ihb right)
  | sub a b iha ihb =>
      obtain ⟨-, ⟨q, r, left, right, -⟩, -⟩ := ofExpr?_sub_eq_some.mp h
      exact forall_operands ⟨p, h⟩ (iha left) (ihb right)
  | mul a b iha ihb =>
      obtain ⟨-, ⟨q, r, left, right, -⟩, -⟩ := ofExpr?_mul_eq_some.mp h
      exact forall_operands ⟨p, h⟩ (iha left) (ihb right)
  | div a b iha ihb =>
      obtain ⟨-, ⟨q, c, left, divisor, -⟩, -⟩ := ofExpr?_div_eq_some.mp h
      exact forall_operands ⟨p, h⟩ (iha left) (ihb (ofExpr?_literal divisor))
  | pow a b iha ihb =>
      obtain ⟨-, ⟨q, k, base, exponent, -⟩, -⟩ := ofExpr?_pow_eq_some.mp h
      exact forall_operands ⟨p, h⟩ (iha base) (ihb (ofExpr?_literal exponent))
  | app f a => exact absurd h (ofExpr?_app f)
  | _ => exact List.forall_mem_singleton.mpr ⟨p, h⟩

theorem readable_of_ofExpr? (h : ofExpr? name e = some p) : Readable name e where
  literal a member absent := by
    obtain ⟨q, read⟩ := ofExpr?_parts h a member
    rw [ofExpr?_of_not_mentions absent] at read
    obtain ⟨c, isLiteral, -⟩ := Option.map_eq_some_iff.mp read
    exact ⟨c, isLiteral⟩
  bounded a member f denotes := by
    obtain ⟨q, read⟩ := ofExpr?_parts h a member
    rw [denotes.unique (denotes_of_ofExpr? read), ← degree_eq]
    exact degree_le_of_ofExpr? read

/-- What is read is a polynomial within the limit of the degree, in no other symbol, and has
the value of the expression everywhere; and everything is read that denotes a polynomial,
leaves the symbol out in literals alone and has no part of too high a degree. -/
theorem reading_is_sound_and_complete (name : String) (e : Expr) :
    (∀ p, ofExpr? name e = some p →
      p.degree ≤ 256 ∧ (∀ n ∈ e.symbols, n = name) ∧
        ∀ symbol : String → ℚ, Valuation.Means { RationalArithmetic.interpretation with symbol } e
          (p.toPolynomial.eval (symbol name))) ∧
      ((∃ p, ofExpr? name e = some p) ↔ (∃ f, Denotes name e f) ∧ Readable name e) := by
  constructor
  · intro p read
    have denotes := denotes_of_ofExpr? read
    refine ⟨degree_le_of_ofExpr? read, fun n member => ?_, fun symbol => ?_⟩
    · exact denotes.names n ((mem_symbols n e).mp member)
    · exact Valuation.means_of_denotes (V := { RationalArithmetic.interpretation with symbol }) denotes
  · constructor
    · rintro ⟨p, read⟩
      exact ⟨⟨_, denotes_of_ofExpr? read⟩, readable_of_ofExpr? read⟩
    · rintro ⟨⟨f, denotes⟩, readable⟩
      obtain ⟨p, read, -⟩ := exists_ofExpr? denotes readable
      exact ⟨p, read⟩

/-- `(2x - 1)³ / 4` is `2x³ - 3x² + 3/2 x - 1/4`, with the value `2` where `x` is `3/2`. -/
theorem cube_over_four_is_read :
    let e : Expr := .div (.pow (.sub (.mul (.const 2) (.var "x")) (.const 1)) (.const 3)) (.const 4)
    let p : Poly := (((monomial 3 2).add (monomial 2 (-3))).add (monomial 1 (3 / 2))).add (.const (-1 / 4))
    let symbol := fun _ : String => (3 / 2 : ℚ)
    ofExpr? "x" e = some p ∧ p.degree ≤ 256 ∧ (∀ n ∈ e.symbols, n = "x") ∧
      Valuation.Means { RationalArithmetic.interpretation with symbol } e 2 ∧ Readable "x" e := by
  intro e p symbol
  have read : ofExpr? "x" e = some p := by decide +kernel
  obtain ⟨sound, complete⟩ := reading_is_sound_and_complete "x" e
  obtain ⟨degree, only, value⟩ := sound p read
  have three : (monomial 3 2).toPolynomial = Polynomial.monomial 3 2 := toPolynomial_monomial (by decide) 2
  have two : (monomial 2 (-3)).toPolynomial = Polynomial.monomial 2 (-3) :=
    toPolynomial_monomial (by decide) (-3)
  have at_three_halves : p.toPolynomial.eval (symbol "x") = 2 := by norm_num [p, symbol, three, two]
  exact ⟨read, degree, only, at_three_halves ▸ value symbol, (complete.mp ⟨p, read⟩).2⟩

end SymbolicAlgebra.Poly
