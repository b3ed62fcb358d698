import SymbolicAlgebra.Proofs.NormalForm
import SymbolicAlgebra.Proofs.Valuation.Simplification

/-! Linear forms are read from expressions of the same value and written as such
expressions, and taking the slope out of an integer power keeps the value. -/

namespace SymbolicAlgebra.Valuation
open SymbolicAlgebra.Expr

variable {K : Type*} [Field K] {V : Valuation K}
variable {a b e : Expr} {l m s : LinearForm} {x y z : K}

/-- The value of a linear form. Without a symbol there must be no slope, as `add?`
lets the slope of one side pass to the symbol of the other. -/
def MeansLinear (V : Valuation K) (l : LinearForm) (x : K) : Prop :=
  match l.symbol with
  | some name => l.slope * V.symbol name + l.offset = x
  | none => l.slope = 0 ∧ l.offset = x

@[simp] theorem meansLinear_some {slope offset : ℚ} {name : String} :
    V.MeansLinear ⟨slope, offset, some name⟩ x ↔ slope * V.symbol name + offset = x := Iff.rfl

@[simp] theorem meansLinear_none {slope offset : ℚ} :
    V.MeansLinear ⟨slope, offset, none⟩ x ↔ slope = 0 ∧ offset = x := Iff.rfl

theorem MeansLinear.negated (h : V.MeansLinear l x) : V.MeansLinear l.negated (-x) := by
  obtain ⟨slope, offset, symbol⟩ := l
  cases symbol with
  | none =>
      obtain ⟨flat, rfl⟩ := meansLinear_none.mp h
      exact meansLinear_none.mpr ⟨neg_eq_zero.mpr flat, Rat.cast_neg _⟩
  | some name =>
      obtain rfl := meansLinear_some.mp h
      apply meansLinear_some.mpr
      rw [Rat.cast_neg, Rat.cast_neg]
      ring

theorem MeansLinear.add? [CharZero K] (h : V.MeansLinear l x) (k : V.MeansLinear m y)
    (joined : l.add? m = some s) : V.MeansLinear s (x + y) := by
  obtain ⟨slope, offset, symbol⟩ := l
  obtain ⟨slope', offset', symbol'⟩ := m
  cases symbol with
  | none =>
      obtain ⟨rfl, rfl⟩ := meansLinear_none.mp h
      obtain rfl := Option.some.inj joined
      cases symbol' with
      | none =>
          obtain ⟨rfl, rfl⟩ := meansLinear_none.mp k
          exact meansLinear_none.mpr ⟨add_zero 0, Rat.cast_add _ _⟩
      | some name =>
          obtain rfl := meansLinear_some.mp k
          apply meansLinear_some.mpr
          rw [zero_add, Rat.cast_add]
          ring
  | some name =>
      obtain rfl := meansLinear_some.mp h
      cases symbol' with
      | none =>
          obtain ⟨rfl, rfl⟩ := meansLinear_none.mp k
          obtain rfl := Option.some.inj joined
          apply meansLinear_some.mpr
          rw [add_zero, Rat.cast_add]
          ring
      | some name' =>
          obtain rfl := meansLinear_some.mp k
          simp only [LinearForm.add?] at joined
          split at joined
          next one =>
            obtain rfl := Option.some.inj joined
            subst one
            apply meansLinear_some.mpr
            rw [Rat.cast_add, Rat.cast_add]
            ring
          next => cases joined

variable [DecidableEq K] [CharZero K]

theorem Means.linear (h : V.Means e x) (read : LinearForm.ofExpr? e = some l) :
    V.MeansLinear l x := by
  induction e generalizing l x with
  | var name =>
      obtain rfl := Option.some.inj read
      simpa [MeansLinear] using h
  | const q =>
      obtain rfl := Option.some.inj read
      exact ⟨rfl, (means_const q).mp h⟩
  | neg a ih =>
      obtain ⟨m, inner, rfl⟩ := Option.map_eq_some_iff.mp read
      obtain ⟨y, value, rfl⟩ := means_neg.mp h
      exact (ih value inner).negated
  | add a b iha ihb =>
      obtain ⟨m, left, tail⟩ := Option.bind_eq_some_iff.mp read
      obtain ⟨s, right, joined⟩ := Option.bind_eq_some_iff.mp tail
      obtain ⟨y, z, first, second, rfl⟩ := means_add.mp h
      exact (iha first left).add? (ihb second right) joined
  | sub a b iha ihb =>
      obtain ⟨m, left, tail⟩ := Option.bind_eq_some_iff.mp read
      obtain ⟨s, right, joined⟩ := Option.bind_eq_some_iff.mp tail
      obtain ⟨y, z, first, second, rfl⟩ := means_sub.mp h
      rw [sub_eq_add_neg]
      exact (iha first left).add? (ihb second right).negated joined
  | mul a b =>
      obtain ⟨y, z, first, second, rfl⟩ := means_mul.mp h
      obtain ⟨q, name, rfl, shape⟩ := LinearForm.ofExpr?_mul read
      rcases shape with ⟨rfl, rfl⟩ | ⟨rfl, rfl⟩
      · rw [means_const] at first
        rw [means_var] at second
        simp [first, second]
      · rw [means_var] at first
        rw [means_const] at second
        simp [first, second, mul_comm]
  | _ => cases read

theorem MeansLinear.toExpr (h : V.MeansLinear l x) : V.Means l.toExpr x := by
  obtain ⟨slope, offset, symbol⟩ := l
  cases symbol with
  | none => exact (means_const offset).mpr h.2
  | some name =>
      have same := meansLinear_some.mp h
      simp only [LinearForm.toExpr]
      split
      next flat => simpa [flat] using same
      have term : V.Means ((const slope).times (var name)) (slope * V.symbol name) :=
        Means.times ((means_const slope).mpr rfl) ((means_var name).mpr rfl)
      split
      next centred =>
        rw [centred, Rat.cast_zero, add_zero] at same
        rwa [← same]
      next => exact same ▸ term.plus ((means_const offset).mpr rfl)

theorem Means.linearized (h : V.Means e x) : V.Means e.linearized x := by
  rw [Expr.linearized]
  cases read : LinearForm.ofExpr? e with
  | none => exact h
  | some l => exact (h.linear read).toExpr

/-- `(a x + b)^k` is `a^k (x + b/a)^k` for every integer `k`. -/
theorem MeansLinear.factoredPower? (h : V.MeansLinear l x) {k : ℤ} (exists' : 0 ≤ k ∨ x ≠ 0)
    (factored : l.factoredPower? k = some e) : V.Means e (x ^ k) := by
  obtain ⟨name, scale, symbol, slope_ne, folded, rfl⟩ := LinearForm.factoredPower?_eq_some factored
  obtain ⟨slope, offset, _⟩ := l
  subst symbol
  obtain ⟨j, exponent, -, -, rfl⟩ := Number.power?_eq_some.mp folded
  obtain rfl := Rat.intCast_injective exponent
  have same := meansLinear_some.mp h
  have cast_ne : (slope : K) ≠ 0 := Rat.cast_ne_zero.mpr slope_ne
  have symbol : V.Means (.var name) (V.symbol name) := (means_var name).mpr rfl
  have monic : V.Means (if offset / slope = 0 then var name
      else (var name).plus (const (offset / slope))) (V.symbol name + offset / slope) := by
    split
    next centred =>
      rw [← Rat.cast_div, centred, Rat.cast_zero, add_zero]
      exact symbol
    next => exact symbol.plus ((means_const _).mpr (Rat.cast_div _ _))
  have product : x = slope * (V.symbol name + offset / slope) := by
    rw [← same]
    field_simp
  have power : V.Means (.pow (if offset / slope = 0 then var name
      else (var name).plus (const (offset / slope))) (const k))
      ((V.symbol name + offset / slope) ^ k) := by
    refine means_pow_int.mpr ⟨_, monic, exists'.imp_right fun x_ne => ?_, rfl⟩
    rw [product] at x_ne
    exact right_ne_zero_of_mul x_ne
  rw [product, mul_zpow]
  exact Means.times ((means_const _).mpr (Rat.cast_zpow _ _)) power.raise

theorem Means.normalPower (h : V.Means (.pow a b) x) : V.Means (normalPower a b) x := by
  rw [Expr.normalPower]
  split
  next e taken =>
    obtain ⟨k, l, rfl, integer, read, factored⟩ := linearPower?_eq_some taken
    obtain ⟨j, rfl⟩ := exists_int_of_isInt integer
    obtain ⟨y, base, exists', rfl⟩ := means_pow_int.mp h
    exact ((base.linear read).factoredPower? exists' factored).simplify
  next => exact h.raise

end SymbolicAlgebra.Valuation
