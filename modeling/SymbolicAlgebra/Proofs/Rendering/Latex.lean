import SymbolicAlgebra.Proofs.Rendering.Latex.Layout
import SymbolicAlgebra.Proofs.Valuation.Rational

/-! What a LaTeX text says about the value of an expression. Each level of layout fits if
the next one does, so the whole text can be read back to an expression of the same value;
only a sum after a minus sign loses its parentheses. -/

namespace SymbolicAlgebra.Latex
open Grammar
open SymbolicAlgebra.Expr

variable {K : Type*} [Field K] [DecidableEq K] [CharZero K] {V : Valuation K}
variable {write : Expr → Nat → String} {a b e : Expr} {x y : K} {k : ℚ}

theorem symbol_x : symbol "x" = "x" := by
  have plain : subscript? "x".toList = none := by decide
  rw [symbol, symbolOf]
  split
  next found =>
    rw [plain] at found
    cases found
  next => decide

/-- How many levels of layout an expression takes at most. -/
def levels (e : Expr) : Nat := 2 * e.size + (isProduct e).toNat

theorem levels_le (e : Expr) : levels e ≤ 2 * e.size + 1 := Nat.add_le_add_left (Bool.toNat_le _) _

/-- The writer fits every legible expression of fewer levels. -/
def WritesBelow (V : Valuation K) (write : Expr → Nat → String) (n : Nat) : Prop :=
  ∀ e, Legible e → levels e < n → Writes V write e

section Step
variable (below : WritesBelow V write (levels e)) (legible : Legible e) (means : V.Means e x)
include below legible means

theorem fits_product_of_below (product : isProduct e = true) :
    Fits V.semantics (leavesSum e) (productLayout write e) x := by
  rw [levels, product, Bool.toNat_true] at below
  refine fits_productLayout (fun n => below _ (inherited_legible.const n) ?_) (fun f member => ?_) means
  · have small : levels (.const n) = 2 := rfl
    have := e.size_pos
    omega
  · have item := item_of_mem member
    have := item.size
    refine below f (item.inherits handedOn_legible legible) ?_
    rw [levels, item.single, Bool.toNat_false]
    omega

theorem written_sum_of_below (sum : e.isSum = true) : Written V.semantics .sum (sumLayout write e) x := by
  refine written_sumLayout (termsWithSign_ne_nil false e) (fun t member => ⟨?_, ?_⟩) means
  · have smaller := size_lt_of_mem_terms sum member
    have unsigned := size_asSigned_le t
    have bound := levels_le (asSigned t).2
    have whole : 2 * e.size ≤ levels e := Nat.le_add_right _ _
    refine below _ (handedOn_legible.asSigned (inherited_legible.terms legible t member)) ?_
    omega
  · exact legible.2 e (mem_parts_self e) sum t member

end Step

omit [CharZero K] in
theorem fits_power_of_below (below : WritesBelow V write (levels (.pow a (.const k))))
    (legible : Legible (.pow a (.const k))) (means : V.Means (.pow a (.const k)) x) :
    Fits V.semantics false (raisedLayout write a (.const k)) x := by
  obtain ⟨-, base⟩ := legible_pow.mp legible
  obtain ⟨y, z, base_means, exponent_means, has⟩ := Valuation.means_pow.mp means
  have room : 2 * a.size + 4 ≤ levels (.pow a (.const k)) := by
    simp only [levels, size]
    omega
  have small : levels (.const k) = 2 := rfl
  have bound := levels_le a
  have base_fits := below a base (by omega) y base_means
  have exponent_fits := below (.const k) (inherited_legible.const k) (by omega) z exponent_means
  have power := (base_fits.written asAtom).pow ((exponent_fits.written 0).weaken (Nat.zero_le _)) has
  rw [raisedLayout_eq base.1]
  exact fits_product (power.weaken (by decide)) (Nat.le_refl _) fun _ =>
    ((base_fits.opens asAtom (by decide)).append _).append _

/-- One level of layout. -/
theorem fits_layout (below : WritesBelow V write (levels e)) (legible : Legible e) (means : V.Means e x) :
    Fits V.semantics (leavesSum e) (layout write e) x := by
  have product := fits_product_of_below below legible means
  have sum := written_sum_of_below below legible means
  cases e with
  | var name =>
      obtain rfl : name = "x" := legible.1
      have text : layout write (.var "x") = fun _ => "x" := funext fun _ => symbol_x
      rw [text]
      exact fits_primary (written_x ((Valuation.means_var "x").mp means)) ⟨_, _, rfl, .inr (.inl rfl)⟩
  | const q =>
      obtain rfl := (Valuation.means_const q).mp means
      exact fits_rational q
  | add a b => exact fits_sum (sum rfl)
  | sub a b => exact fits_sum (sum rfl)
  | mul a b => exact product rfl
  | div a b => exact product rfl
  | neg a => exact product rfl
  | pow a b =>
      cases b with
      | const k =>
          obtain ⟨whole, base⟩ := legible_pow.mp legible
          have power : layout write (.pow a (.const k)) = powerLayout write a (.const k) := rfl
          rw [power, powerLayout_eq base.1 whole]
          split
          next negative => exact product (decide_eq_true negative)
          next => exact (fits_power_of_below below legible means).weaken _
      | _ => exact legible.1.elim
  | _ => exact legible.1.elim

/-- All levels of layout, if the depth is enough for them. -/
theorem fits_writeWithin {depth : Nat} (legible : Legible e) (enough : levels e ≤ depth) :
    Writes V (writeWithin depth) e := by
  induction depth generalizing e with
  | zero =>
      have := e.size_pos
      rw [levels] at enough
      omega
  | succ depth ih =>
      have below : WritesBelow V (writeWithin depth) (levels e) :=
        fun f legible fewer => ih legible (Nat.le_of_lt_succ (fewer.trans_le enough))
      exact fun x means => fits_layout below legible means

/-- The text of a legible expression can be read, and what is read has its value. -/
theorem legible_text_keeps_value (legible : Legible e) (means : V.Means e x) :
    ∃ r, Expr.parse (inputSyntax e.latex) = .ok r ∧ V.Means r x := by
  have fits := fits_writeWithin legible (levels_le e) x means
  obtain ⟨r, parsed, value⟩ := ((fits.written 0).weaken (Nat.zero_le _)).parse
  exact ⟨r, parsed, (V.value_semantics r).symm.trans value⟩

/-- Equal texts of legible expressions have equal values. -/
theorem equal_texts_have_equal_values (ha : Legible a) (hb : Legible b) (same : a.latex = b.latex)
    (hx : V.Means a x) (hy : V.Means b y) : x = y := by
  obtain ⟨r, parsed, value⟩ := legible_text_keeps_value ha hx
  obtain ⟨r', parsed', value'⟩ := legible_text_keeps_value hb hy
  rw [same] at parsed
  obtain rfl := Except.ok.inj (parsed.symm.trans parsed')
  exact value.unique value'

/-- Half of `x + 1`, taken from `x**2` as a quotient and as a negative multiple. -/
theorem subtracted_half_has_one_value :
    let x : Expr := .var "x"
    let a : Expr := .sub (.pow x (.const 2)) (.div (.add x (.const 1)) (.const 2))
    let b : Expr := .add (.mul (.add (.const 1) x) (.const (-1/2))) (.pow x (.const 2))
    let V := RationalArithmetic.valuation 3
    Legible a ∧ Legible b ∧ a.latex = b.latex ∧ V.Means a 7 ∧ V.Means b (V.val b) ∧ V.val b = 7 := by
  intro x a b V
  have ha : Legible a := ⟨by simp [a, x, Arithmetic, Rat.isInt], by decide +kernel⟩
  have hb : Legible b := ⟨by simp [b, x, Arithmetic, Rat.isInt], by decide +kernel⟩
  have same : a.latex = b.latex := by decide +kernel
  have hx : V.Means a 7 := by decide +kernel
  have hy : V.Means b (V.val b) := by decide +kernel
  exact ⟨ha, hb, same, hx, hy, (equal_texts_have_equal_values ha hb same hx hy).symm⟩

/-- After the minus sign of a term that is a sum, the parentheses are missing. -/
theorem subtracted_sum_has_no_parentheses :
    let x : Expr := .var "x"
    let a : Expr := .add (.pow x (.const 2)) (.mul (.const (-1)) (.add x (.const 1)))
    let b : Expr := .add (.pow x (.const 2)) (.add (.neg x) (.const 1))
    Arithmetic a ∧ Arithmetic b ∧ a.latex = b.latex ∧
      (RationalArithmetic.valuation 1).Means a (-1) ∧ (RationalArithmetic.valuation 1).Means b 1 := by
  intro x a b
  have ha : Arithmetic a := by simp [a, x, Arithmetic, Rat.isInt]
  have hb : Arithmetic b := by simp [b, x, Arithmetic, Rat.isInt]
  exact ⟨ha, hb, by decide +kernel⟩

end SymbolicAlgebra.Latex
