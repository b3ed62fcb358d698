import Mathlib.Data.EReal.Inv
import SymbolicAlgebra.Proofs.Arithmetic.InfinitePower
import SymbolicAlgebra.Proofs.ExtendedReal

/-! Exact arithmetic with numbers and infinities, now with quotients and integer powers. An
infinite value has the reciprocal zero, so that a quotient is the product with the power to
`-1`, and infinity over infinity is zero times infinity, without a value. -/

namespace SymbolicAlgebra.ExtendedReal
open SymbolicAlgebra.Expr

/-- The quotient of two values, unless both are infinite or the divisor is zero. -/
noncomputable def div? (x y : EReal) : Option EReal :=
  if y = 0 ∨ (x = ⊤ ∨ x = ⊥) ∧ (y = ⊤ ∨ y = ⊥) then none else some (x / y)

/-- The integer power of a value, unless zero is raised to a negative one. -/
noncomputable def pow? (x : EReal) (k : ℤ) : Option EReal :=
  if x = 0 ∧ k < 0 then none else some (x ^ k)

/-- The value from the bottom up; an indeterminate part leaves none. -/
noncomputable def quantity : Expr → Option EReal
  | .const q => some ((q : ℝ) : EReal)
  | .infinity => some ⊤
  | .add a b => do add? (← quantity a) (← quantity b)
  | .sub a b => do add? (← quantity a) (-(← quantity b))
  | .mul a b => do mul? (← quantity a) (← quantity b)
  | .div a b => do div? (← quantity a) (← quantity b)
  | .pow a (.const k) => if k.isInt then do pow? (← quantity a) k.num else none
  | .neg a => (quantity a).map (-·)
  | _ => none

/-- Numbers, infinity and indeterminate forms under the four operations, signs and powers by
integer constants within the limit. -/
def Arithmetical : Expr → Prop
  | .const _ | .infinity | .undefined => True
  | .add a b | .sub a b | .mul a b | .div a b => Arithmetical a ∧ Arithmetical b
  | .pow a (.const k) => Arithmetical a ∧ k.isInt = true ∧ k.num.natAbs ≤ 4096
  | .neg a => Arithmetical a
  | _ => False

/-- Every divisor has a value other than zero, and no zero is raised to a negative power. -/
structure Regular (e : Expr) : Prop where
  divisor : ∀ a b, .div a b ∈ e.parts → quantity b ≠ none ∧ quantity b ≠ some 0
  base : ∀ a k, .pow a (.const k) ∈ e.parts → k < 0 → quantity a ≠ some 0

variable {a b e r s : Expr} {v w : Option EReal} {x y : EReal} {q : ℚ} {k : ℤ}

theorem Regular.part (h : Regular e) (inside : ∀ x ∈ a.parts, x ∈ e.parts) : Regular a where
  divisor a b member := h.divisor a b (inside _ member)
  base a k member := h.base a k (inside _ member)

theorem inv_infinite (q : ℚ) : (infinite q)⁻¹ = 0 := by
  obtain ⟨same, -⟩ | ⟨same, -⟩ := infinite_cases q <;> rw [same]
  · exact EReal.inv_top
  · exact EReal.inv_bot

theorem infinite_mul_infinite {p : ℚ} (p_ne : p ≠ 0) (q_ne : q ≠ 0) :
    infinite p * infinite q = infinite (p * q) := by
  have product := mul?_infinite_infinite p_ne q_ne
  rw [mul?] at product
  split at product
  next => cases product
  next => exact Option.some.inj product

theorem infinite_pow (q_ne : q ≠ 0) (n : ℕ) : infinite q ^ (n + 1) = infinite (q ^ (n + 1)) := by
  induction n with
  | zero => rw [zero_add, pow_one, pow_one]
  | succ n ih => rw [pow_succ, ih, infinite_mul_infinite (pow_ne_zero _ q_ne) q_ne, ← pow_succ]

/-- An infinite base to an integer power: one to the power zero, zero to a negative power, and
else infinite with the sign of the power of the sign. -/
theorem infinite_zpow (q_ne : q ≠ 0) (k : ℤ) :
    infinite q ^ k = if k = 0 then 1 else if k < 0 then 0 else infinite (q ^ k) := by
  cases k with
  | ofNat n =>
      cases n with
      | zero => simp
      | succ n =>
          rw [if_neg (by simp; omega), if_neg (by simp; omega), Int.ofNat_eq_natCast, zpow_natCast,
            zpow_natCast, infinite_pow q_ne]
  | negSucc n =>
      rw [zpow_negSucc, infinite_pow q_ne, inv_infinite, if_neg (by simp), if_pos (Int.negSucc_lt_zero n)]

theorem coe_zpow (x : ℝ) (k : ℤ) : ((x ^ k : ℝ) : EReal) = (x : EReal) ^ k := by
  cases k with
  | ofNat n => rw [Int.ofNat_eq_natCast, zpow_natCast, zpow_natCast, EReal.coe_pow]
  | negSucc n => rw [zpow_negSucc, zpow_negSucc, EReal.coe_inv, EReal.coe_pow]

/-- A quotient is the product with the reciprocal. -/
theorem div?_eq (x : EReal) (y_ne : y ≠ 0) : div? x y = (do mul? x (← pow? y (-1))) := by
  have reciprocal : pow? y (-1) = some y⁻¹ := by rw [pow?, if_neg (by simp [y_ne]), zpow_neg_one]
  rw [reciprocal]
  change div? x y = mul? x y⁻¹
  rw [div?, mul?, div_eq_mul_inv]
  induction y with
  | bot | top => simp
  | coe y =>
      have inverse_ne : (y : EReal)⁻¹ ≠ 0 := by
        rw [← EReal.coe_inv, EReal.coe_ne_zero]
        exact inv_ne_zero (EReal.coe_ne_zero.mp y_ne)
      have finite : (y : EReal)⁻¹ ≠ ⊤ ∧ (y : EReal)⁻¹ ≠ ⊥ := by
        rw [← EReal.coe_inv]
        exact ⟨EReal.coe_ne_top _, EReal.coe_ne_bot _⟩
      simp [y_ne, inverse_ne, finite]

theorem Agrees.pow (h : Agrees False r v) (bounded : k.natAbs ≤ Number.foldLimit)
    (based : k < 0 → v ≠ some 0) : Agrees False (r.raise (.const k)) (do pow? (← v) k) := by
  cases h with
  | undefined =>
      rw [undefined_raise]
      exact .undefined
  | @infinite q q_ne =>
      have base_ne : ExtendedReal.infinite q ≠ 0 := by
        obtain ⟨same, -⟩ | ⟨same, -⟩ := infinite_cases q <;> simp [same]
      change Agrees _ _ (pow? (ExtendedReal.infinite q) k)
      rw [pow?, if_neg (fun zero => base_ne zero.1), raise_signedInfinity q_ne, infinite_zpow q_ne]
      split
      next => simpa [one] using agrees_const (n := False) 1
      split
      next => simpa [zero] using agrees_const (n := False) 0
      next => exact .infinite (zpow_ne_zero k q_ne)
  | finite free number =>
      obtain ⟨q, rfl, rfl⟩ := number.resolve_left id
      have exists' : 0 ≤ k ∨ q ≠ 0 := by
        rw [or_iff_not_imp_left]
        rintro negative rfl
        exact based (by omega) (by simp)
      change Agrees _ _ (pow? ((q : ℝ) : EReal) k)
      rw [pow?, if_neg, raise_const_int bounded exists', ← coe_zpow, ← Rat.cast_zpow]
      · exact agrees_const (q ^ k)
      · rintro ⟨zero, negative⟩
        exact based negative (congrArg some zero)

/-- Evaluation forms a quotient as the product with the reciprocal, too. -/
theorem Agrees.dividedBy_eq (h : Agrees False r v) (k : Agrees False s w) (defined : w ≠ none)
    (nonzero : w ≠ some 0) : r.dividedBy s = r.times (s.raise (.const (-1))) := by
  have divisor_ne : s.isZero = false := by
    cases k with
    | undefined => rfl
    | infinite q_ne => exact (isInfinite_signedInfinity _).isZero
    | finite free number =>
        obtain ⟨q, rfl, rfl⟩ := number.resolve_left id
        by_contra zero
        have q_eq : q = 0 := by simpa [isZero] using zero
        exact nonzero (by rw [q_eq]; simp)
  apply dividedBy_eq_times divisor_ne
  intro vanishes notNumber
  obtain rfl := (isZero_iff r).mp vanishes
  cases k with
  | undefined => exact absurd rfl defined
  | @infinite q q_ne =>
      have reciprocal := raise_signedInfinity q_ne (-1)
      rw [if_neg (by decide), if_pos (by decide), Int.cast_neg, Int.cast_one] at reciprocal
      rw [reciprocal]
      exact (const_times_const 0 0).trans (by rw [zero_mul]; rfl)
  | finite free number =>
      obtain ⟨q, rfl, rfl⟩ := number.resolve_left id
      cases notNumber

theorem Agrees.div (h : Agrees False r v) (k : Agrees False s w) (defined : w ≠ none)
    (nonzero : w ≠ some 0) : Agrees False (r.dividedBy s) (do div? (← v) (← w)) := by
  have product := (h.mul (k.pow (k := -1) (by decide) (fun _ => nonzero)) (fun _ _ => id) (fun _ _ => id)).imp
    (fun both => both.elim id id)
  rw [Int.cast_neg, Int.cast_one] at product
  rw [h.dividedBy_eq k defined nonzero]
  obtain ⟨y, rfl⟩ := Option.ne_none_iff_exists'.mp defined
  have y_ne : y ≠ 0 := fun zero => nonzero (congrArg some zero)
  have same : (do div? (← v) (← some y)) = (do mul? (← v) (← do pow? (← some y) (-1))) := by
    cases v with
    | none => rfl
    | some x => exact div?_eq x y_ne
  rw [same]
  exact product

theorem agrees_quantity (arithmetical : Arithmetical e) (regular : Regular e) :
    Agrees False e.evaluate (quantity e) := by
  have unnamed {r : Expr} {v : Option EReal} (h : Agrees (False ∨ False) r v) : Agrees False r v :=
    h.imp fun both => both.elim id id
  induction e with
  | const q => exact agrees_const q
  | infinity => exact agrees_infinity
  | undefined => exact .undefined
  | add a b iha ihb =>
      have left := iha arithmetical.1 (regular.part (parts_left rfl))
      have right := ihb arithmetical.2 (regular.part (parts_right rfl))
      exact unnamed (left.add right)
  | sub a b iha ihb =>
      have left := iha arithmetical.1 (regular.part (parts_left rfl))
      have right := ihb arithmetical.2 (regular.part (parts_right rfl))
      exact unnamed (left.sub right)
  | mul a b iha ihb =>
      have left := iha arithmetical.1 (regular.part (parts_left rfl))
      have right := ihb arithmetical.2 (regular.part (parts_right rfl))
      exact unnamed (left.mul right (fun _ _ => id) (fun _ _ => id))
  | div a b iha ihb =>
      have left := iha arithmetical.1 (regular.part (parts_left rfl))
      have right := ihb arithmetical.2 (regular.part (parts_right rfl))
      obtain ⟨defined, nonzero⟩ := regular.divisor a b (mem_parts_self _)
      exact left.div right defined nonzero
  | pow a b iha _ =>
      cases b with
      | const k =>
          obtain ⟨base, integer, bounded⟩ := arithmetical
          obtain ⟨n, rfl⟩ := exists_int_of_isInt integer
          have based : n < 0 → quantity a ≠ some 0 := fun negative =>
            regular.base a n (mem_parts_self _) (by exact_mod_cast negative)
          have power := (iha base (regular.part (parts_left rfl))).pow bounded based
          rw [quantity, if_pos integer]
          exact power
      | _ => exact arithmetical.elim
  | neg a ih => exact (ih arithmetical (regular.part fun _ => List.mem_cons_of_mem _)).neg
  | _ => exact arithmetical.elim

/-- Evaluation leaves the number, the infinity or the indeterminate form that the value is. -/
theorem evaluation_is_extended_arithmetic {e : Expr} (arithmetical : Arithmetical e) (regular : Regular e) :
    (∃ q : ℚ, e.evaluate = .const q ∧ quantity e = some ((q : ℝ) : EReal)) ∨
      e.evaluate = .infinity ∧ quantity e = some ⊤ ∨
      e.evaluate = .neg .infinity ∧ quantity e = some ⊥ ∨
      e.evaluate = .undefined ∧ quantity e = none := by
  have agrees := agrees_quantity arithmetical regular
  generalize e.evaluate = r, quantity e = v at agrees
  cases agrees with
  | undefined => exact .inr (.inr (.inr ⟨rfl, rfl⟩))
  | @infinite q q_ne =>
      rcases lt_or_gt_of_ne q_ne with negative | positive
      · exact .inr (.inr (.inl ⟨signedInfinity_of_neg negative, congrArg some (infinite_of_neg negative)⟩))
      · exact .inr (.inl ⟨signedInfinity_of_pos positive, congrArg some (infinite_of_pos positive)⟩)
  | finite free number =>
      obtain ⟨q, rfl, rfl⟩ := number.resolve_left id
      exact .inl ⟨q, rfl, rfl⟩

/-- Signs pass through a power, a quotient and a difference: `(-oo)³ / (-2) - 5/oo` is infinity. -/
theorem infinite_quotient_of_negatives :
    let e : Expr := .sub (.div (.pow (.neg .infinity) (.const 3)) (.const (-2))) (.div (.const 5) .infinity)
    Arithmetical e ∧ Regular e ∧ e.evaluate = .infinity ∧ quantity e = some ⊤ := by
  intro e
  have arithmetical : Arithmetical e := by simp [e, Arithmetical, Rat.isInt]
  have division : ∀ a b, .div a b ∈ e.parts → b = .const (-2) ∨ b = .infinity := by
    simp +contextual [e, parts, or_imp]
  have power : ∀ a k, .pow a (.const k) ∈ e.parts → k = 3 := by simp [e, parts]
  have regular : Regular e := by
    constructor
    · intro a b member
      obtain rfl | rfl := division a b member <;> simp [quantity]
    · intro a k member negative
      rw [power a k member] at negative
      exact absurd negative (by decide)
  have evaluated : e.evaluate = .infinity := by decide +kernel
  obtain ⟨q, same, -⟩ | ⟨-, top⟩ | ⟨same, -⟩ | ⟨same, -⟩ :=
    evaluation_is_extended_arithmetic arithmetical regular
  · cases evaluated.symm.trans same
  · exact ⟨arithmetical, regular, evaluated, top⟩
  · cases evaluated.symm.trans same
  · cases evaluated.symm.trans same

end SymbolicAlgebra.ExtendedReal
