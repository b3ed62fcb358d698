import Mathlib.Data.EReal.Operations
import SymbolicAlgebra.DefiniteIntegral
import SymbolicAlgebra.Proofs.Arithmetic.Infinity
import SymbolicAlgebra.Proofs.Arithmetic.Quotient
import SymbolicAlgebra.Proofs.FixedPoint
import SymbolicAlgebra.Proofs.Hereditary.Evaluation

/-! Values in the extended reals. Opposite infinities have no sum, and zero times infinity is
no product. Evaluation finds each such form, as long as no infinite value is multiplied
with a finite one that names `pi`: such a product is kept, and an infinite term or a term
that vanishes is not seen inside of it. -/

namespace SymbolicAlgebra.ExtendedReal
open SymbolicAlgebra.Expr

/-- The sum of two values, unless they are opposite infinities. -/
noncomputable def add? (x y : EReal) : Option EReal :=
  if x = ⊤ ∧ y = ⊥ ∨ x = ⊥ ∧ y = ⊤ then none else some (x + y)

/-- The product of two values, unless one is zero and the other infinite. -/
noncomputable def mul? (x y : EReal) : Option EReal :=
  if x = 0 ∧ (y = ⊤ ∨ y = ⊥) ∨ (x = ⊤ ∨ x = ⊥) ∧ y = 0 then none else some (x * y)

/-- The value from the bottom up, for a value of `pi`; an indeterminate part leaves none. -/
noncomputable def value (p : ℝ) : Expr → Option EReal
  | .const q => some ((q : ℝ) : EReal)
  | .pi => some p
  | .infinity => some ⊤
  | .add a b => do add? (← value p a) (← value p b)
  | .sub a b => do add? (← value p a) (-(← value p b))
  | .mul a b => do mul? (← value p a) (← value p b)
  | .neg a => (value p a).map (-·)
  | _ => none

/-- Sums, products and opposites of numbers, `pi` and infinity. -/
def Elementary : Expr → Prop
  | .const _ | .pi | .infinity => True
  | .add a b | .sub a b | .mul a b => Elementary a ∧ Elementary b
  | .neg a => Elementary a
  | _ => False

/-- Infinity with the sign of a nonzero number. -/
noncomputable def infinite (q : ℚ) : EReal := if 0 < q then ⊤ else ⊥

variable {p q : ℚ} {x y : ℝ} {n m : Prop} {r s : Expr} {v w : Option EReal}

theorem infinite_of_pos (positive : 0 < q) : infinite q = ⊤ := if_pos positive

theorem infinite_of_neg (negative : q < 0) : infinite q = ⊥ := if_neg negative.not_gt

theorem infinite_cases (q : ℚ) : infinite q = ⊤ ∧ side q = 1 ∨ infinite q = ⊥ ∧ side q = -1 := by
  rw [infinite, side]
  split <;> simp

theorem add?_infinite_infinite (p q : ℚ) :
    add? (infinite p) (infinite q) = if side p = side q then some (infinite p) else none := by
  have apart : (1 : ℚ) ≠ -1 := by decide
  obtain ⟨hp, left⟩ | ⟨hp, left⟩ := infinite_cases p <;>
    obtain ⟨hq, right⟩ | ⟨hq, right⟩ := infinite_cases q <;>
    simp [add?, hp, hq, left, right, apart, apart.symm]

theorem add?_infinite_coe (p : ℚ) (x : ℝ) : add? (infinite p) x = some (infinite p) := by
  obtain ⟨hp, -⟩ | ⟨hp, -⟩ := infinite_cases p <;> simp [add?, hp]

theorem add?_coe_infinite (x : ℝ) (p : ℚ) : add? x (infinite p) = some (infinite p) := by
  obtain ⟨hp, -⟩ | ⟨hp, -⟩ := infinite_cases p <;> simp [add?, hp]

theorem add?_coe_coe (x y : ℝ) : add? x y = some ((x + y : ℝ) : EReal) := by simp [add?]

theorem neg_infinite (q_ne : q ≠ 0) : -infinite q = infinite (-q) := by
  rcases lt_or_gt_of_ne q_ne with negative | positive
  · rw [infinite_of_neg negative, infinite_of_pos (neg_pos.mpr negative), EReal.neg_bot]
  · rw [infinite_of_pos positive, infinite_of_neg (neg_neg_of_pos positive), EReal.neg_top]

theorem mul?_infinite_infinite (p_ne : p ≠ 0) (q_ne : q ≠ 0) :
    mul? (infinite p) (infinite q) = some (infinite (p * q)) := by
  rcases lt_or_gt_of_ne p_ne with hp | hp <;> rcases lt_or_gt_of_ne q_ne with hq | hq
  · rw [infinite_of_neg hp, infinite_of_neg hq, infinite_of_pos (mul_pos_of_neg_of_neg hp hq)]
    simp [mul?]
  · rw [infinite_of_neg hp, infinite_of_pos hq, infinite_of_neg (mul_neg_of_neg_of_pos hp hq)]
    simp [mul?]
  · rw [infinite_of_pos hp, infinite_of_neg hq, infinite_of_neg (mul_neg_of_pos_of_neg hp hq)]
    simp [mul?]
  · rw [infinite_of_pos hp, infinite_of_pos hq, infinite_of_pos (mul_pos hp hq)]
    simp [mul?]

theorem mul?_comm (x y : EReal) : mul? x y = mul? y x := by
  rw [mul?, mul?, EReal.mul_comm x y]
  congr 1
  simp only [eq_iff_iff]
  tauto

theorem mul?_infinite_coe (p_ne : p ≠ 0) (q : ℚ) :
    mul? (infinite p) (q : ℝ) = if q = 0 then none else some (infinite (p * q)) := by
  have infinite_or : infinite p = ⊤ ∨ infinite p = ⊥ := (infinite_cases p).imp And.left And.left
  split
  next vanishes => rw [mul?, if_pos (.inr ⟨infinite_or, by simp [vanishes]⟩)]
  next q_ne =>
    have determinate : ¬ (infinite p = 0 ∧ (((q : ℝ) : EReal) = ⊤ ∨ ((q : ℝ) : EReal) = ⊥) ∨
        (infinite p = ⊤ ∨ infinite p = ⊥) ∧ ((q : ℝ) : EReal) = 0) := by simp [q_ne]
    rw [mul?, if_neg determinate]
    rcases lt_or_gt_of_ne p_ne with hp | hp <;> rcases lt_or_gt_of_ne q_ne with hq | hq
    · rw [infinite_of_neg hp, infinite_of_pos (mul_pos_of_neg_of_neg hp hq),
        EReal.bot_mul_coe_of_neg (Rat.cast_lt_zero.mpr hq)]
    · rw [infinite_of_neg hp, infinite_of_neg (mul_neg_of_neg_of_pos hp hq),
        EReal.bot_mul_coe_of_pos (Rat.cast_pos.mpr hq)]
    · rw [infinite_of_pos hp, infinite_of_neg (mul_neg_of_pos_of_neg hp hq),
        EReal.top_mul_coe_of_neg (Rat.cast_lt_zero.mpr hq)]
    · rw [infinite_of_pos hp, infinite_of_pos (mul_pos hp hq),
        EReal.top_mul_coe_of_pos (Rat.cast_pos.mpr hq)]

theorem mul?_coe_coe (x y : ℝ) : mul? x y = some ((x * y : ℝ) : EReal) := by simp [mul?]

/-- What evaluation makes of an expression with the value. A finite value is kept as a number
if `pi` is not named. -/
inductive Agrees (named : Prop) : Expr → Option EReal → Prop where
  | undefined : Agrees named .undefined none
  | infinite {q : ℚ} (q_ne : q ≠ 0) : Agrees named (signedInfinity q) (some (infinite q))
  | finite {r : Expr} {x : ℝ} (free : FreeOfInfinity r) (number : named ∨ ∃ q : ℚ, r = .const q ∧ x = q) :
      Agrees named r (some x)

theorem Agrees.imp (h : Agrees n r v) (weaker : n → m) : Agrees m r v := by
  cases h with
  | undefined => exact .undefined
  | infinite q_ne => exact .infinite q_ne
  | finite free number => exact .finite free (number.imp_left weaker)

theorem agrees_const (q : ℚ) : Agrees n (.const q) (some ((q : ℝ) : EReal)) :=
  .finite (hereditary_freeOfInfinity.const q) (.inr ⟨q, rfl, rfl⟩)

theorem Agrees.neg (h : Agrees n r v) : Agrees n r.negate (v.map (-·)) := by
  cases h with
  | undefined => exact .undefined
  | infinite q_ne =>
      rw [negate_signedInfinity q_ne, Option.map_some, neg_infinite q_ne]
      exact .infinite (neg_ne_zero.mpr q_ne)
  | @finite r x free number =>
      rw [Option.map_some, ← EReal.coe_neg]
      refine .finite (hereditary_freeOfInfinity.negate free) (number.imp_right ?_)
      rintro ⟨q, rfl, rfl⟩
      exact ⟨-q, rfl, (Rat.cast_neg q).symm⟩

theorem Agrees.add (h : Agrees n r v) (k : Agrees m s w) :
    Agrees (n ∨ m) (r.plus s) (do add? (← v) (← w)) := by
  cases h with
  | undefined =>
      rw [undefined_plus]
      exact .undefined
  | @infinite p p_ne =>
      cases k with
      | undefined =>
          rw [plus_undefined]
          exact .undefined
      | @infinite q q_ne =>
          change Agrees _ _ (add? (ExtendedReal.infinite p) (ExtendedReal.infinite q))
          rw [signedInfinity_plus_signedInfinity, add?_infinite_infinite]
          split
          next => exact .infinite p_ne
          next => exact .undefined
      | @finite s y free number =>
          change Agrees _ _ (add? (ExtendedReal.infinite p) y)
          rw [signedInfinity_plus free, add?_infinite_coe]
          exact .infinite p_ne
  | @finite r x free number =>
      cases k with
      | undefined =>
          rw [plus_undefined]
          exact .undefined
      | @infinite q q_ne =>
          change Agrees _ _ (add? x (ExtendedReal.infinite q))
          rw [plus_signedInfinity free, add?_coe_infinite]
          exact .infinite q_ne
      | @finite s y free' number' =>
          change Agrees _ _ (add? x y)
          rw [add?_coe_coe]
          refine .finite (hereditary_freeOfInfinity.plus free free') ?_
          rcases number with named | ⟨p, rfl, rfl⟩
          · exact .inl (.inl named)
          rcases number' with named | ⟨q, rfl, rfl⟩
          · exact .inl (.inr named)
          exact .inr ⟨p + q, const_plus_const p q, (Rat.cast_add p q).symm⟩

theorem Agrees.sub (h : Agrees n r v) (k : Agrees m s w) :
    Agrees (n ∨ m) (r.minus s) (do add? (← v) (-(← w))) := by
  have same : (do add? (← v) (← w.map (-·))) = (do add? (← v) (-(← w))) := by cases w <;> rfl
  exact same ▸ h.add k.neg

theorem agrees_infinity : Agrees n .infinity (some ⊤) := by
  have agrees : Agrees n (signedInfinity 1) (some (infinite 1)) := .infinite one_ne_zero
  rwa [infinite_of_pos one_pos] at agrees

def IsInfinite (v : Option EReal) : Prop := v = some ⊤ ∨ v = some ⊥

def IsReal (v : Option EReal) : Prop := ∃ x : ℝ, v = some x

theorem isInfinite_infinite (q : ℚ) : IsInfinite (some (infinite q)) :=
  (infinite_cases q).imp (congrArg some ·.1) (congrArg some ·.1)

theorem Agrees.mul (h : Agrees n r v) (k : Agrees m s w) (left : IsInfinite v → IsReal w → ¬ m)
    (right : IsReal v → IsInfinite w → ¬ n) : Agrees (n ∨ m) (r.times s) (do mul? (← v) (← w)) := by
  cases h with
  | undefined =>
      rw [undefined_times]
      exact .undefined
  | @infinite p p_ne =>
      cases k with
      | undefined =>
          rw [times_undefined]
          exact .undefined
      | @infinite q q_ne =>
          change Agrees _ _ (mul? (ExtendedReal.infinite p) (ExtendedReal.infinite q))
          rw [signedInfinity_times_signedInfinity p_ne q_ne, mul?_infinite_infinite p_ne q_ne]
          exact .infinite (mul_ne_zero p_ne q_ne)
      | @finite s y free number =>
          have unnamed := left (isInfinite_infinite p) ⟨y, rfl⟩
          obtain ⟨q, rfl, rfl⟩ := number.resolve_left unnamed
          change Agrees _ _ (mul? (ExtendedReal.infinite p) (q : ℝ))
          rw [signedInfinity_times_const p_ne, mul?_infinite_coe p_ne]
          split
          next => exact .undefined
          next q_ne => exact .infinite (mul_ne_zero p_ne q_ne)
  | @finite r x free number =>
      cases k with
      | undefined =>
          rw [times_undefined]
          exact .undefined
      | @infinite q q_ne =>
          have unnamed := right ⟨x, rfl⟩ (isInfinite_infinite q)
          obtain ⟨p, rfl, rfl⟩ := number.resolve_left unnamed
          change Agrees _ _ (mul? (p : ℝ) (ExtendedReal.infinite q))
          rw [const_times_signedInfinity q_ne, mul?_comm, mul?_infinite_coe q_ne]
          split
          next => exact .undefined
          next p_ne => exact .infinite (mul_ne_zero q_ne p_ne)
      | @finite s y free' number' =>
          change Agrees _ _ (mul? x y)
          rw [mul?_coe_coe]
          refine .finite (hereditary_freeOfInfinity.times free free') ?_
          rcases number with named | ⟨p, rfl, rfl⟩
          · exact .inl (.inl named)
          rcases number' with named | ⟨q, rfl, rfl⟩
          · exact .inl (.inr named)
          exact .inr ⟨p * q, const_times_const p q, (Rat.cast_mul p q).symm⟩

/-- No infinite value is multiplied with a finite one that names `pi`. -/
def InfinityApart (p : ℝ) : Expr → Prop
  | .mul a b => InfinityApart p a ∧ InfinityApart p b ∧
      (IsInfinite (value p a) → IsReal (value p b) → .pi ∉ b.parts ) ∧
      (IsReal (value p a) → IsInfinite (value p b) → .pi ∉ a.parts)
  | .add a b | .sub a b => InfinityApart p a ∧ InfinityApart p b
  | .neg a => InfinityApart p a
  | _ => True

theorem agrees {p : ℝ} {e : Expr} (elementary : Elementary e) (apart : InfinityApart p e) :
    Agrees (.pi ∈ e.parts) e.evaluate (value p e) := by
  have operands {a b : Expr} {e : Expr} (inside : e.parts = e :: (a.parts ++ b.parts))
      (named : .pi ∈ a.parts ∨ .pi ∈ b.parts) : .pi ∈ e.parts :=
    (mem_parts_operation inside).mpr (.inr named)
  induction e with
  | const q => exact agrees_const q
  | pi => exact .finite (by simp [FreeOfInfinity, parts, evaluate]) (.inl List.mem_cons_self)
  | infinity => exact agrees_infinity
  | add a b iha ihb =>
      have sum := (iha elementary.1 apart.1).add (ihb elementary.2 apart.2)
      exact sum.imp (operands rfl)
  | sub a b iha ihb =>
      have difference := (iha elementary.1 apart.1).sub (ihb elementary.2 apart.2)
      exact difference.imp (operands rfl)
  | mul a b iha ihb =>
      obtain ⟨left, right, absorbed, absorbing⟩ := apart
      exact ((iha elementary.1 left).mul (ihb elementary.2 right) absorbed absorbing).imp (operands rfl)
  | neg a ih => exact (ih elementary apart).neg.imp (List.mem_cons_of_mem _)
  | _ => exact elementary.elim

theorem Agrees.hasUndefined_iff (h : Agrees n r v) : r.hasUndefined = true ↔ v = none := by
  cases h with
  | undefined => exact ⟨fun _ => rfl, fun _ => rfl⟩
  | @infinite q q_ne =>
      rw [signedInfinity]
      split <;> simp [hasUndefined]
  | finite free number => simp [hasUndefined_iff, free.2]

/-- Further passes change no infinite and no indeterminate result. -/
theorem Agrees.simplify {e : Expr} (h : Agrees n e.evaluate v) : Agrees n e.simplify v := by
  have settled {r : Expr} (same : e.evaluate = r) (fixed : r.evaluate = r) (plain : PlainTerms r) :
      e.simplify = r := by
    have pass : r.pass = r := (PlainTerms.pass_eq (fixed.symm ▸ plain)).trans fixed
    exact simplify_of_evaluate same plain pass
  generalize same : e.evaluate = r at h
  cases h with
  | undefined =>
      have plain : PlainTerms .undefined := by
        intro negative
        cases negative <;> decide
      rw [settled same rfl plain]
      exact .undefined
  | @infinite q q_ne =>
      have fixed : (signedInfinity q).evaluate = signedInfinity q := by
        rw [signedInfinity]
        split <;> rfl
      have plain : PlainTerms (signedInfinity q) := by
        intro negative
        rw [signedInfinity]
        split <;> cases negative <;> decide
      rw [settled same fixed plain]
      exact .infinite q_ne
  | @finite r x free number =>
      refine .finite (hereditary_freeOfInfinity.passClosed.simplify_of_evaluate (same ▸ free)) (number.imp_right ?_)
      rintro ⟨q, rfl, rfl⟩
      have plain : PlainTerms (.const q) := by
        intro negative t member
        obtain rfl := List.mem_singleton.mp member
        cases negative <;> exact List.forall_mem_nil _
      exact ⟨q, settled same rfl plain, rfl⟩

theorem requireDefined_of_elementary {e : Expr} (h : Elementary e) : e.requireDefined = .ok () := by
  induction e with
  | add a b iha ihb | sub a b iha ihb | mul a b iha ihb =>
      rw [requireDefined, iha h.1, ihb h.2]
      rfl
  | neg a ih => exact ih h
  | const _ | pi | infinity => rfl
  | _ => exact h.elim

/-- An indeterminate form is never simplified to anything else, by one pass or by all of them,
nothing else is simplified to one, and as a bound it is refused. -/
theorem indeterminate_forms_are_refused {p : ℝ} {e : Expr} (elementary : Elementary e)
    (apart : InfinityApart p e) :
    (e.evaluate.hasUndefined = true ↔ value p e = none) ∧
      (e.simplify.hasUndefined = true ↔ value p e = none) ∧
      ∀ text, Expr.ofStatementText text = .ok e →
        (Expr.ofBoundText text = .error (.indeterminate text) ↔ value p e = none) := by
  have evaluated := agrees elementary apart
  refine ⟨evaluated.hasUndefined_iff, evaluated.simplify.hasUndefined_iff, fun text read => ?_⟩
  rw [← evaluated.hasUndefined_iff, Expr.ofBoundText, read]
  change (e.requireDefined >>= _) = _ ↔ _
  rw [requireDefined_of_elementary elementary]
  change (e.evaluate.requireDeterminate text >>= _) = _ ↔ _
  rw [requireDeterminate]
  split
  next indeterminate => exact iff_of_true rfl indeterminate
  next determinate => exact iff_of_false (by simp) determinate

/-- The infinite factor is a sum that names `pi`, and it meets a zero. -/
theorem zero_times_infinite_sum_is_refused :
    let e : Expr := .sub (.mul (.const 0) (.add .infinity .pi)) .pi
    Elementary e ∧ InfinityApart 3 e ∧ value 3 e = none ∧
      e.evaluate.hasUndefined = true ∧ e.simplify.hasUndefined = true ∧
      Expr.ofBoundText "0*(oo + pi) - pi" = .error (.indeterminate "0*(oo + pi) - pi") := by
  intro e
  have elementary : Elementary e := ⟨⟨trivial, trivial, trivial⟩, trivial⟩
  have zero : value 3 (.const 0) = some 0 := by simp [value]
  have apart : InfinityApart 3 e := by
    simp [e, InfinityApart, zero, IsInfinite, parts]
  have indeterminate : value 3 e = none := by
    simp [e, value, add?, mul?]
  have read : Expr.ofStatementText "0*(oo + pi) - pi" = .ok e := by decide +kernel
  obtain ⟨evaluated, simplified, refused⟩ := indeterminate_forms_are_refused elementary apart
  exact ⟨elementary, apart, indeterminate, evaluated.mpr indeterminate, simplified.mpr indeterminate,
    (refused _ read).mpr indeterminate⟩

/-- Where infinity has the factor `pi`, opposite infinite terms are cancelled like finite ones. -/
theorem opposite_multiples_of_infinity_are_cancelled :
    let e : Expr := .sub (.mul .pi .infinity) (.mul .pi .infinity)
    Elementary e ∧ (∀ p : ℝ, 0 < p → value p e = none) ∧ e.evaluate = zero ∧ e.simplify = zero ∧
      Expr.ofBoundText "pi*oo - pi*oo" = .ok zero := by
  intro e
  refine ⟨⟨⟨trivial, trivial⟩, trivial, trivial⟩, fun p positive => ?_, by decide +kernel, by decide +kernel,
    by decide +kernel⟩
  have product : value p (.mul .pi .infinity) = some ⊤ := by
    simp [value, mul?, positive.ne', EReal.coe_mul_top_of_pos positive]
  have difference : value p e = (do add? (← value p (.mul .pi .infinity)) (-(← value p (.mul .pi .infinity)))) := by
    rw [value]
  rw [difference, product]
  simp [add?]

end SymbolicAlgebra.ExtendedReal
