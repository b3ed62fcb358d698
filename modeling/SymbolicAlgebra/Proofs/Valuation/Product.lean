import SymbolicAlgebra.Proofs.Arithmetic.Raising
import SymbolicAlgebra.Proofs.Valuation.Sum

/-! Multiplication multiplies values, and raising gives the value of the power.
Multiplication and raising call each other, so each is shown sound for any sound
choice of the other; the count of levels is then a plain induction. -/

namespace SymbolicAlgebra.Valuation
open SymbolicAlgebra.Expr

variable {K : Type*} [Field K] [DecidableEq K] {V : Valuation K}
variable {a b e p : Expr} {l : List Expr} {x y z : K}

/-- The expression that a listed base and exponent stand for. Powers of `e` are
read as exponentials, which may have values where `e` itself has none. -/
def listedPower (entry : Expr × Expr) : Expr :=
  if entry.1 = euler then .app .exp entry.2 else .pow entry.1 entry.2

def Multiplies (V : Valuation K) (times : Expr → Expr → Expr) : Prop :=
  ∀ ⦃a b x y⦄, V.Means a x → V.Means b y → V.Means (times a b) (x * y)

def Raises (V : Valuation K) (raise : Expr → Expr → Expr) : Prop :=
  ∀ ⦃b e x⦄, V.Means (listedPower (b, e)) x → V.Means (raise b e) x

theorem means_euler : V.Means euler x ↔ V.head .exp 1 = some x := by
  simp [euler, means_app]

/-- A power of an exponential is an exponential of the product. -/
theorem exp_mul_of_listedPower (h : V.Means (listedPower (.app .exp a, e)) z) :
    ∃ x y, V.Means a x ∧ V.Means e y ∧ V.head .exp (x * y) = some z := by
  rw [listedPower] at h
  split at h
  next isEuler =>
    obtain ⟨y, exponent, has⟩ := (means_app .exp).mp h
    cases isEuler
    exact ⟨1, y, means_one.mpr rfl, exponent, by rwa [one_mul]⟩
  next =>
    obtain ⟨u, y, base, exponent, has⟩ := means_pow.mp h
    obtain ⟨x, arg, inner⟩ := (means_app .exp).mp base
    exact ⟨x, y, arg, exponent, V.exp_power inner has⟩

theorem Means.listedPower (h : V.Means (.pow b e) x) : V.Means (listedPower (b, e)) x := by
  rw [Valuation.listedPower]
  split
  next isEuler =>
    cases isEuler
    obtain ⟨u, y, base, exponent, has⟩ := means_pow.mp h
    have exponential := V.exp_power (means_euler.mp base) has
    rw [one_mul] at exponential
    exact exponent.app exponential
  next => exact h

theorem Means.asPower (h : V.Means e x) : V.Means (Valuation.listedPower e.asPower) x := by
  have asBase (notEuler : e ≠ euler) : V.Means (Valuation.listedPower (e, one)) x := by
    rw [Valuation.listedPower, if_neg notEuler]
    exact h.pow (means_one.mpr rfl) (V.power_one x)
  cases e with
  | pow b e => exact h.listedPower
  | app f a =>
      by_cases exponential : f = .exp
      · subst exponential
        simpa [Expr.asPower, Valuation.listedPower] using h
      · have notEuler : Expr.app f a ≠ euler := fun same => exponential (Expr.app.inj same).1
        cases f <;> first | exact absurd rfl exponential | exact asBase notEuler
  | _ => exact asBase (by simp [euler])

theorem MeansProduct.raised {raise : Expr → Expr → Expr} (raises : V.Raises raise)
    {powers : List (Expr × Expr)} (h : V.MeansProduct (powers.map listedPower) z) :
    V.MeansProduct (powers.map fun entry => raise entry.1 entry.2) z := by
  induction powers generalizing z with
  | nil => exact h
  | cons entry rest ih =>
      obtain ⟨x, y, first, others, rfl⟩ := meansProduct_cons.mp h
      exact meansProduct_cons.mpr ⟨x, y, raises first, ih others, rfl⟩

theorem not_hasInfiniteFactor (h : V.Means e x) : e.hasInfiniteFactor = false := by
  apply List.any_eq_false.mpr
  intro f member infinite
  have defined := h.factors.1 f member
  rw [Bool.or_eq_true, decide_eq_true_eq, decide_eq_true_eq] at infinite
  rcases infinite with rfl | rfl
  · obtain ⟨y, has⟩ := defined
    exact not_means_infinity has
  · obtain ⟨y, has⟩ := defined
    obtain ⟨z, inner, -⟩ := means_neg.mp has
    exact not_means_infinity inner

theorem not_isIndeterminateProduct (h : V.Means a x) (k : V.Means b y) :
    isIndeterminateProduct a b = false := by
  have a_ne : a ≠ undefined := by
    rintro rfl
    exact not_means_undefined h
  have b_ne : b ≠ undefined := by
    rintro rfl
    exact not_means_undefined k
  simp [isIndeterminateProduct, a_ne, b_ne, not_hasInfiniteFactor h, not_hasInfiniteFactor k]

theorem eq_const_of_value? {q : ℚ} (h : e.value? = some q) : e = const q := by
  cases e <;> simp_all [value?]

theorem Means.exponential (h : V.Means (.app .exp a) x) : V.Means (Expr.exponential a) x := by
  obtain ⟨y, arg, has⟩ := (means_app .exp).mp h
  unfold Expr.exponential
  split
  next zero =>
    rw [(isZero_iff a).mp zero, means_zero] at arg
    subst arg
    exact means_one.mpr (V.one_at_zero (by decide) has).symm
  split
  next u _ =>
    obtain ⟨z, inner, logged⟩ := (means_app .log).mp arg
    rwa [V.inverse (by decide) logged has]
  next => exact h

theorem means_raise_zero (h : V.Means (listedPower (b, zero)) x) : V.Means one x := by
  rw [listedPower] at h
  split at h
  · obtain ⟨y, exponent, has⟩ := (means_app .exp).mp h
    rw [← means_zero.mp exponent] at has
    exact means_one.mpr (V.one_at_zero (by decide) has).symm
  · obtain ⟨u, y, base, exponent, has⟩ := means_pow.mp h
    rw [← means_zero.mp exponent, V.power_zero] at has
    exact means_one.mpr (Option.some.inj has)

theorem means_raise_one (h : V.Means (listedPower (b, one)) x) : V.Means b x := by
  rw [listedPower] at h
  split at h
  next isEuler =>
    cases isEuler
    exact h
  · obtain ⟨u, y, base, exponent, has⟩ := means_pow.mp h
    rw [← means_one.mp exponent, V.power_one] at has
    exact Option.some.inj has ▸ base

theorem means_raise_unit (h : V.Means (listedPower (one, e)) x) : V.Means one x := by
  obtain ⟨u, y, base, exponent, has⟩ := means_pow.mp h
  rw [← means_one.mp base] at has
  exact means_one.mpr (V.one_power has).symm

theorem not_means_listedPower (operand : b = undefined ∨ e = undefined) : ¬ V.Means (listedPower (b, e)) x := by
  intro h
  rw [listedPower] at h
  split at h
  next isEuler =>
    obtain ⟨y, exponent, -⟩ := (means_app .exp).mp h
    rcases operand with rfl | rfl
    · cases isEuler
    · exact not_means_undefined exponent
  next =>
    obtain ⟨u, y, base, exponent, -⟩ := means_pow.mp h
    rcases operand with rfl | rfl
    · exact not_means_undefined base
    · exact not_means_undefined exponent

theorem means_pow_int {k : ℤ} : V.Means (.pow b (const k)) z ↔
    ∃ x, V.Means b x ∧ (0 ≤ k ∨ x ≠ 0) ∧ x ^ k = z := by
  constructor
  · intro h
    obtain ⟨x, y, base, exponent, has⟩ := means_pow.mp h
    rw [means_const, Rat.cast_intCast] at exponent
    subst exponent
    exact ⟨x, base, V.nonneg_or_ne_of_power has, (V.eq_zpow_of_power has).symm⟩
  · rintro ⟨x, base, exists', rfl⟩
    exact base.pow ((means_const _).mpr (Rat.cast_intCast k)) (V.power_int x k exists')

variable [CharZero K]

theorem listedPower_plus {s t : Expr} (h : V.Means (listedPower (b, s)) x)
    (k : V.Means (listedPower (b, t)) y) : V.Means (listedPower (b, s.plus t)) (x * y) := by
  unfold listedPower at *
  split
  next isEuler =>
    rw [if_pos isEuler] at h k
    obtain ⟨u, left, hasLeft⟩ := (means_app .exp).mp h
    obtain ⟨v, right, hasRight⟩ := (means_app .exp).mp k
    exact (left.plus right).app (V.exp_add hasLeft hasRight)
  next notEuler =>
    rw [if_neg notEuler] at h k
    exact h.pow_add (fun _ _ left right => left.plus right) k

theorem MeansProduct.joinPower {powers : List (Expr × Expr)}
    (h : V.MeansProduct (powers.map listedPower) y) (k : V.Means (listedPower (b, e)) x) :
    V.MeansProduct ((joinPower b e powers).map listedPower) (y * x) := by
  induction powers generalizing y with
  | nil =>
      rw [← h.2]
      exact meansProduct_cons.mpr ⟨x, 1, k, meansProduct_nil, by simp⟩
  | cons head rest ih =>
      obtain ⟨u, v, first, others, rfl⟩ := meansProduct_cons.mp h
      simp only [Expr.joinPower]
      split
      next same =>
        subst same
        exact meansProduct_cons.mpr ⟨u * x, v, listedPower_plus first k, others, by ring⟩
      next => exact meansProduct_cons.mpr ⟨u, v * x, first, ih others, by ring⟩

theorem MeansProduct.joinedPowers (h : V.MeansProduct l x) :
    V.MeansProduct ((joinedPowers l).map listedPower) x := by
  suffices accumulated : ∀ (powers : List (Expr × Expr)) (y z : K),
      V.MeansProduct (powers.map listedPower) y → V.MeansProduct l z →
      V.MeansProduct ((l.foldl (fun powers item =>
        Expr.joinPower item.asPower.1 item.asPower.2 powers) powers).map listedPower) (y * z) by
    simpa [Expr.joinedPowers] using accumulated [] 1 x meansProduct_nil h
  clear h
  induction l with
  | nil =>
      intro powers y z joined items
      simpa [← items.2] using joined
  | cons item rest ih =>
      intro powers y z joined items
      obtain ⟨u, v, first, others, rfl⟩ := meansProduct_cons.mp items
      rw [← mul_assoc]
      exact ih _ _ _ (joined.joinPower first.asPower) others

/-- Numbers among the members of a product make up a coefficient. -/
theorem MeansProduct.splitNumbers (h : V.MeansProduct l z) :
    ∃ y, V.MeansProduct ((l.filter fun e => e.value?.isNone).flatMap factors) y ∧
      ((l.filterMap value?).foldr (· * ·) 1 : ℚ) * y = z := by
  induction l generalizing z with
  | nil => exact ⟨1, meansProduct_nil, by simp [← h.2]⟩
  | cons a rest ih =>
      obtain ⟨x, y, first, others, rfl⟩ := meansProduct_cons.mp h
      obtain ⟨w, tail, rfl⟩ := ih others
      cases number : a.value? with
      | none =>
          refine ⟨x * w, ?_, ?_⟩
          · simpa [number] using first.factors.append tail
          · simp only [List.filterMap_cons, number]
            ring
      | some q =>
          have isConst : a = const q := by cases a <;> simp_all [value?]
          subst isConst
          rw [means_const] at first
          refine ⟨w, by simpa [value?] using tail, ?_⟩
          simp [value?, ← first, mul_assoc]

theorem MeansProduct.productOfPowers {raise : Expr → Expr → Expr} (raises : V.Raises raise)
    (h : V.MeansProduct l z) : ∃ y, V.Means (productOfPowers raise l).2 y ∧
      ((productOfPowers raise l).1 : K) * y = z := by
  obtain ⟨y, rest, total⟩ := (h.joinedPowers.raised raises).splitNumbers
  exact ⟨y, rest.sortedProduct, total⟩

/-! Multiplication, for a sound way to raise. -/

section Raising
variable {raise : Expr → Expr → Expr} (raises : V.Raises raise)
include raises

theorem multiplies_timesPlain : V.Multiplies (timesPlain raise) := by
  intro a b x y h k
  rw [timesPlain, if_neg (by simp [not_isIndeterminateProduct h k])]
  split
  next p q left right =>
    rw [eq_const_of_value? left, means_const] at h
    rw [eq_const_of_value? right, means_const] at k
    simp [← h, ← k]
  split
  next zero =>
    rw [Bool.or_eq_true, isZero_iff, isZero_iff] at zero
    rcases zero with rfl | rfl
    · simp [← means_zero.mp h]
    · simp [← means_zero.mp k]
  split
  next one =>
    rw [(isOne_iff a).mp one, means_one] at h
    rwa [← h, one_mul]
  split
  next one =>
    rw [(isOne_iff b).mp one, means_one] at k
    rwa [← k, mul_one]
  next =>
    obtain ⟨z, core, total⟩ := (h.mul k).asMultiple
    obtain ⟨w, rest, folded⟩ := core.factors.productOfPowers raises
    have finite : (productOfPowers raise (mul a b).asMultiple.2.factors).2 ≠ infinity := by
      intro infinite
      rw [infinite] at rest
      exact not_means_infinity rest
    simp only [finite, false_and, if_false]
    rw [← total, ← folded, ← mul_assoc, ← Rat.cast_mul]
    exact rest.scaled _

theorem means_timesConst (q : ℚ) (h : V.Means e x) : V.Means (timesConst raise q e) (q * x) := by
  induction e generalizing x with
  | add a b iha ihb =>
      obtain ⟨y, z, left, right, rfl⟩ := means_add.mp h
      rw [mul_add]
      exact (iha left).plus (ihb right)
  | sub a b iha ihb =>
      obtain ⟨y, z, left, right, rfl⟩ := means_sub.mp h
      rw [mul_sub]
      exact (iha left).minus (ihb right)
  | _ =>
      rw [mul_comm]
      exact multiplies_timesPlain raises h ((means_const q).mpr rfl)

theorem multiplies_timesWith : V.Multiplies (timesWith raise) := by
  have numbers {e : Expr} {q : ℚ} (found : e.multiplier? = some q) : e = const q := by
    cases e <;> simp_all [multiplier?]
  intro a b x y h k
  rw [timesWith]
  split
  next q found =>
    split at found
    · rw [numbers found, means_const] at h
      exact h ▸ means_timesConst raises q k
    · cases found
  next q _ found =>
    split at found
    · rw [numbers found, means_const] at k
      rw [mul_comm]
      exact k ▸ means_timesConst raises q h
    · cases found
  next => exact multiplies_timesPlain raises h k

end Raising

/-! Raising, for a sound way to multiply. -/

section Multiplying
variable {times : Expr → Expr → Expr} (multiplies : V.Multiplies times)
include multiplies

theorem means_of_raisesTo {r : Expr} (raised : RaisesTo times b e r)
    (h : V.Means (listedPower (b, e)) x) : V.Means r x := by
  induction raised generalizing x with
  | indeterminate operand => exact absurd h (not_means_listedPower operand)
  | zero => exact means_raise_zero h
  | one => exact means_raise_one h
  | unit => exact means_raise_unit h
  | @folded q k value folds =>
      obtain ⟨k, rfl, -, -, rfl⟩ := Number.power?_eq_some.mp folds
      obtain ⟨y, base, -, rfl⟩ := means_pow_int.mp h
      rw [← (means_const q).mp base]
      exact (means_const _).mpr (Rat.cast_zpow q k)
  | vanishing | infinite =>
      obtain ⟨y, z, base, -⟩ := means_pow.mp h
      exact absurd base not_means_infinity
  | exp =>
      obtain ⟨y, z, arg, exponent, has⟩ := exp_mul_of_listedPower h
      exact Means.exponential ((multiplies arg exponent).app has)
  | pow integer _ ih =>
      obtain ⟨k, rfl⟩ := exists_int_of_isInteger integer
      obtain ⟨y, z, power, exponent, has⟩ := means_pow.mp h
      obtain ⟨u, v, base, inner, hasInner⟩ := means_pow.mp power
      rw [means_const, Rat.cast_intCast] at exponent
      have joined := V.power_power k hasInner (exponent ▸ has)
      have product := multiplies inner ((means_const (k : ℚ)).mpr (Rat.cast_intCast k))
      exact ih (base.pow product joined).listedPower
  | mul integer _ _ iha ihb =>
      obtain ⟨k, rfl⟩ := exists_int_of_isInteger integer
      obtain ⟨y, base, exists', rfl⟩ := means_pow_int.mp h
      obtain ⟨u, v, left, right, rfl⟩ := means_mul.mp base
      have existsLeft : 0 ≤ k ∨ u ≠ 0 := exists'.imp_right left_ne_zero_of_mul
      have existsRight : 0 ≤ k ∨ v ≠ 0 := exists'.imp_right right_ne_zero_of_mul
      rw [mul_zpow]
      exact multiplies (iha (means_pow_int.mpr ⟨u, left, existsLeft, rfl⟩).listedPower)
        (ihb (means_pow_int.mpr ⟨v, right, existsRight, rfl⟩).listedPower)
  | neg integer _ ih =>
      obtain ⟨k, rfl⟩ := exists_int_of_isInteger integer
      obtain ⟨y, base, exists', rfl⟩ := means_pow_int.mp h
      obtain ⟨u, inner, rfl⟩ := means_neg.mp base
      have raised := ih (means_pow_int.mpr ⟨u, inner, exists'.imp_right neg_ne_zero.mp, rfl⟩).listedPower
      split
      next odd =>
        rw [((isOddInteger_int k).mp odd).neg_zpow]
        exact raised.negate
      next notOdd =>
        have even : Even k := Int.not_odd_iff_even.mp fun odd => notOdd ((isOddInteger_int k).mpr odd)
        rwa [even.neg_zpow]
  | @irreducible b e stays =>
      have notEuler : b ≠ euler := by
        rintro rfl
        cases stays.stays
      rwa [listedPower, if_neg notEuler] at h

theorem raises_raiseWith : V.Raises (raiseWith times) :=
  fun b e _ h => means_of_raisesTo multiplies (raisesTo_raiseWith times b e) h

end Multiplying

theorem multiplies_timesWithin (depth : Nat) : V.Multiplies (timesWithin depth) := by
  induction depth with
  | zero =>
      intro a b x y h k
      rw [timesWithin, if_neg (by simp [not_isIndeterminateProduct h k])]
      exact (h.factors.append k.factors).sortedProduct
  | succ depth ih => exact multiplies_timesWith (raises_raiseWith ih)

theorem Means.times (h : V.Means a x) (k : V.Means b y) : V.Means (a.times b) (x * y) :=
  multiplies_timesWithin _ h k

theorem Means.raise (h : V.Means (.pow b e) x) : V.Means (b.raise e) x :=
  raises_raiseWith (multiplies_timesWithin _) h.listedPower

theorem Means.dividedBy (h : V.Means a x) (k : V.Means b y) (y_ne : y ≠ 0) :
    V.Means (a.dividedBy b) (x / y) := by
  rw [Expr.dividedBy]
  split
  next => exact means_div.mpr ⟨x, y, h, k, y_ne, rfl⟩
  split
  next p q left right =>
    rw [eq_const_of_value? left, means_const] at h
    rw [eq_const_of_value? right, means_const] at k
    simp [← h, ← k]
  split
  next zero =>
    rw [(isZero_iff a).mp zero, means_zero] at h
    simp [← h]
  split
  next one =>
    rw [(isOne_iff b).mp one, means_one] at k
    rwa [← k, div_one]
  next =>
    rw [div_eq_mul_inv]
    exact h.times (Means.raise (k.pow ((means_const (-1)).mpr (by simp)) (V.power_inv y_ne)))

end SymbolicAlgebra.Valuation
