import Mathlib.Algebra.Ring.Int.Parity
import SymbolicAlgebra.Arithmetic.Product
import SymbolicAlgebra.Proofs.Number

/-! What raising a base to an exponent comes to, rule by rule. Zero, one and indeterminate
operands decide first, then the base, and a power is left where no rule applies. -/

namespace SymbolicAlgebra.Expr

variable {a b e : Expr} {times : Expr → Expr → Expr}

theorem isInteger_int (k : ℤ) : (const k).isInteger = true := by simp [isInteger, Rat.isInt]

theorem exists_int_of_isInteger (h : e.isInteger = true) : ∃ k : ℤ, e = const k := by
  cases e with
  | const q =>
      obtain ⟨k, rfl⟩ := exists_int_of_isInt h
      exact ⟨k, rfl⟩
  | _ => cases h

theorem isOddInteger_int (k : ℤ) : (const k).isOddInteger = true ↔ Odd k := by
  have integer : (k : ℚ).isInt = true := isInteger_int k
  rw [isOddInteger, integer, Rat.num_intCast, Bool.true_and, decide_eq_true_iff, Int.odd_iff]

/-- True where a power of the base takes the exponent inside: a number that is folded, an
infinity to a number, an exponential, or a power, product or sign to an integer. -/
def absorbs (exponent : Expr) : Expr → Bool
  | const q =>
      match exponent with
      | const k => k.isInt && k.num.natAbs ≤ Number.foldLimit && (q ≠ 0 || 0 ≤ k)
      | _ => false
  | infinity => exponent.value?.isSome
  | app .exp _ => true
  | pow _ _ | mul _ _ | neg _ => exponent.isInteger
  | _ => false

/-- A number takes an exponent inside exactly where the power is folded. -/
theorem absorbs_const (q : Rat) (e : Expr) :
    absorbs e (.const q) = (e.value?.bind (Number.power? q)).isSome := by
  cases e with
  | const k =>
      simp only [absorbs, Expr.value?, Option.bind_some, Number.power?, ← Rat.num_nonneg]
      by_cases bounded : k.den = 1 ∧ k.num.natAbs ≤ Number.foldLimit
      · rw [if_pos bounded]
        by_cases nonneg : 0 ≤ k.num
        · simp [Rat.isInt, bounded.1, bounded.2, nonneg]
        · by_cases zero : q = 0 <;> simp [Rat.isInt, bounded.1, bounded.2, nonneg, zero]
      · rw [if_neg bounded]
        rw [not_and_or] at bounded
        rcases bounded with fraction | large
        · simp [Rat.isInt, fraction]
        · simp [large]
  | _ => rfl

/-- A power that no rule changes. -/
structure IsIrreduciblePower (base exponent : Expr) : Prop where
  base_defined : base ≠ undefined
  exponent_defined : exponent ≠ undefined
  exponent_ne_zero : exponent ≠ zero
  exponent_ne_one : exponent ≠ one
  base_ne_one : base ≠ one
  stays : absorbs exponent base = false

/-- The rules for raising a base to an exponent, given how products are formed. -/
inductive RaisesTo (times : Expr → Expr → Expr) : Expr → Expr → Expr → Prop where
  | indeterminate {b e : Expr} (operand : b = undefined ∨ e = undefined) : RaisesTo times b e undefined
  | zero {b : Expr} : RaisesTo times b zero one
  | one {b : Expr} : RaisesTo times b one b
  | unit {e : Expr} : RaisesTo times one e one
  | folded {q k value : Rat} (folds : Number.power? q k = some value) :
      RaisesTo times (const q) (const k) (const value)
  | vanishing {k : Rat} (negative : k < 0) : RaisesTo times infinity (const k) zero
  | infinite {k : Rat} (positive : ¬ k < 0) : RaisesTo times infinity (const k) infinity
  | exp {a e : Expr} : RaisesTo times (app .exp a) e (exponential (times a e))
  | pow {b p e r : Expr} (integer : e.isInteger = true) (joined : RaisesTo times b (times p e) r) :
      RaisesTo times (pow b p) e r
  | mul {a b e r s : Expr} (integer : e.isInteger = true) (left : RaisesTo times a e r)
      (right : RaisesTo times b e s) : RaisesTo times (mul a b) e (times r s)
  | neg {a e r : Expr} (integer : e.isInteger = true) (operand : RaisesTo times a e r) :
      RaisesTo times (neg a) e (if e.isOddInteger then r.negate else r)
  | irreducible {b e : Expr} (stays : IsIrreduciblePower b e) : RaisesTo times b e (pow b e)

/-- The rules that do not look into the base, ahead of those that do. -/
theorem RaisesTo.special {core : Expr} (otherwise : (absorbs e b = false → RaisesTo times b e (.pow b e)) →
      RaisesTo times b e core) : RaisesTo times b e
    (if b = undefined ∨ e = undefined then undefined
      else if e.isZero then Expr.one
      else if e.isOne then b
      else if b.isOne then Expr.one
      else core) := by
  split
  next operand => exact .indeterminate operand
  next determinate =>
    obtain ⟨base_defined, exponent_defined⟩ := not_or.mp determinate
    simp only [isZero_iff, isOne_iff]
    split
    next is_zero => exact is_zero ▸ .zero
    next exponent_ne_zero =>
      split
      next is_one => exact is_one ▸ .one
      next exponent_ne_one =>
        split
        next is_unit =>
          rw [is_unit]
          exact .unit
        next base_ne_one =>
          exact otherwise fun stays => .irreducible ⟨base_defined, exponent_defined, exponent_ne_zero,
            exponent_ne_one, base_ne_one, stays⟩

theorem raisesTo_raiseWith (times : Expr → Expr → Expr) (b e : Expr) :
    RaisesTo times b e (raiseWith times b e) := by
  induction b generalizing e with
  | const q =>
      rw [raiseWith]
      refine .special fun kept => ?_
      split
      next value folds =>
        obtain ⟨k, number, folds⟩ := Option.bind_eq_some_iff.mp folds
        obtain rfl : e = const k := by cases e <;> cases number; rfl
        exact .folded folds
      next unfolded => exact kept (by rw [absorbs_const, unfolded, Option.isSome_none])
  | infinity =>
      rw [raiseWith]
      refine .special fun kept => ?_
      split
      next k number =>
        obtain rfl : e = const k := by cases e <;> cases number; rfl
        split
        next negative => exact .vanishing negative
        next positive => exact .infinite positive
      next symbolic => exact kept (Option.isSome_eq_false_iff.mpr (Option.isNone_iff_eq_none.mpr symbolic))
  | app f a =>
      unfold raiseWith
      refine .special fun kept => ?_
      cases f with
      | exp => exact .exp
      | _ => exact kept rfl
  | pow b p ih =>
      rw [raiseWith]
      refine .special fun kept => ?_
      split
      next integer => exact .pow integer (ih (times p e))
      next symbolic => exact kept (Bool.not_eq_true _ ▸ symbolic)
  | mul a b iha ihb =>
      rw [raiseWith]
      refine .special fun kept => ?_
      split
      next integer => exact .mul integer (iha e) (ihb e)
      next symbolic => exact kept (Bool.not_eq_true _ ▸ symbolic)
  | neg a ih =>
      rw [raiseWith]
      refine .special fun kept => ?_
      split
      next integer => exact .neg integer (ih e)
      next symbolic => exact kept (Bool.not_eq_true _ ▸ symbolic)
  | _ =>
      unfold raiseWith
      exact .special fun kept => kept rfl

end SymbolicAlgebra.Expr
