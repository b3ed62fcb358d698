import SymbolicAlgebra.Proofs.Arithmetic.Product
import SymbolicAlgebra.Proofs.Expr.Parts

/-! Arithmetic with infinity and with indeterminate forms. An infinite operand decides a sum
with any expression that is free of infinity, and a product with any number but zero;
opposite infinities leave no value, and neither does zero times infinity. -/

namespace SymbolicAlgebra.Expr
open Tally

variable {a b x y : Expr} {p q : Rat} {A : LikeTerms}

theorem amounts_of_freeOfInfinity (h : FreeOfInfinity a) :
    ∀ entry ∈ a.amounts, ∀ f ∈ entry.1, FreeOfInfinity f := by
  intro entry member
  obtain ⟨t, present, term⟩ := List.mem_filterMap.mp member
  exact hereditary_freeOfInfinity.likeTerm? (hereditary_freeOfInfinity.terms h t present) term

theorem not_freeOfInfinity : ¬ FreeOfInfinity infinity ∧ ¬ FreeOfInfinity undefined := by
  simp [FreeOfInfinity, parts]

/-! Sums. -/

theorem collected_undefined (listed : ([undefined], q) ∈ A) : collected A = undefined := by
  rw [collected, ofLikeTerms, if_pos (isSome_find?_ofList listed)]

/-- Without an indeterminate form, infinite terms decide. -/
theorem collected_infinite (determinate : ∀ entry ∈ A, entry.1 ≠ [undefined]) (listed : ([infinity], q) ∈ A)
    (sum : (A.map fun entry => if entry.1 = [infinity] then entry.2 else 0).sum = p) :
    collected A = if p = 0 then undefined else signedInfinity p := by
  have missing : ¬ (find? [undefined] (ofList cmpList A)).isSome = true := by
    intro found
    obtain ⟨r, found⟩ := Option.isSome_iff_exists.mp found
    obtain ⟨s, present⟩ := key_of_mem_ofList (mem_of_find? found)
    exact determinate _ present rfl
  have infinite : (find? [infinity] (ofList cmpList A)).isSome = true := isSome_find?_ofList listed
  obtain ⟨r, found⟩ := Option.isSome_iff_exists.mp infinite
  have total : Tally.total [infinity] (ofList cmpList A) = p := (total_ofList _ A).trans sum
  rw [Tally.total, found, Option.getD_some] at total
  rw [collected, ofLikeTerms, if_neg missing, found, total]

theorem undefined_plus (b : Expr) : undefined.plus b = undefined := by
  rw [plus_eq]
  exact collected_undefined (q := 1) (List.mem_append_left _ List.mem_cons_self)

theorem plus_undefined (a : Expr) : a.plus undefined = undefined := by rw [plus_comm, undefined_plus]

/-- The sign of an infinite term. -/
def side (q : Rat) : Rat := if 0 < q then 1 else -1

theorem side_ne_zero (q : Rat) : side q ≠ 0 := by
  rw [side]
  split <;> decide

theorem amounts_signedInfinity (q : Rat) : (signedInfinity q).amounts = [([infinity], side q)] := by
  rw [signedInfinity, side]
  split <;> rfl

theorem signedInfinity_side (q : Rat) : signedInfinity (side q) = signedInfinity q := by
  rw [signedInfinity, side, signedInfinity]
  split <;> rfl

section Absorption
variable (h : FreeOfInfinity a)
include h

theorem sum_infinite_amounts :
    (a.amounts.map fun entry => if entry.1 = [infinity] then entry.2 else 0).sum = 0 := by
  apply List.sum_eq_zero
  intro amount member
  obtain ⟨entry, listed, rfl⟩ := List.mem_map.mp member
  apply if_neg
  intro same
  exact not_freeOfInfinity.1 (amounts_of_freeOfInfinity h entry listed infinity (same ▸ List.mem_cons_self))

theorem determinate_amounts : ∀ entry ∈ a.amounts, entry.1 ≠ [undefined] := by
  intro entry listed same
  exact not_freeOfInfinity.2 (amounts_of_freeOfInfinity h entry listed undefined (same ▸ List.mem_cons_self))

theorem plus_signedInfinity (q : Rat) : a.plus (signedInfinity q) = signedInfinity q := by
  have infinite := collected_infinite (A := a.amounts ++ [([infinity], side q)]) (q := side q) (p := side q)
    (List.forall_mem_append.mpr ⟨determinate_amounts h, by simp⟩) (by simp)
    (by simp [sum_infinite_amounts h])
  rw [plus_eq, amounts_signedInfinity, infinite, if_neg (side_ne_zero q), signedInfinity_side]

theorem signedInfinity_plus (q : Rat) : (signedInfinity q).plus a = signedInfinity q := by
  rw [plus_comm, plus_signedInfinity h]

end Absorption

theorem signedInfinity_plus_signedInfinity (p q : Rat) :
    (signedInfinity p).plus (signedInfinity q) = if side p = side q then signedInfinity p else undefined := by
  rw [signedInfinity, signedInfinity, side, side]
  split <;> split <;> decide +kernel

theorem signedInfinity_of_pos (positive : 0 < q) : signedInfinity q = infinity := if_pos positive

theorem signedInfinity_of_neg (negative : q < 0) : signedInfinity q = neg infinity :=
  if_neg negative.not_gt

theorem negate_signedInfinity (q_ne : q ≠ 0) : (signedInfinity q).negate = signedInfinity (-q) := by
  rcases lt_or_gt_of_ne q_ne with negative | positive
  · rw [signedInfinity_of_neg negative, signedInfinity_of_pos (neg_pos.mpr negative)]
    rfl
  · rw [signedInfinity_of_pos positive, signedInfinity_of_neg (neg_neg_of_pos positive)]
    rfl

/-! Products. -/

theorem times_undefined (a : Expr) : a.times undefined = undefined := by
  have plain : MultipliesPlainly a undefined := ⟨fun sum => absurd sum Bool.false_ne_true, fun _ => rfl⟩
  rw [times_eq_timesPlain plain, timesPlain, if_pos (by simp [isIndeterminateProduct])]

theorem undefined_times (b : Expr) : undefined.times b = undefined := by
  rw [times_comm, times_undefined]

theorem signedInfinity_times_signedInfinity (p_ne : p ≠ 0) (q_ne : q ≠ 0) :
    (signedInfinity p).times (signedInfinity q) = signedInfinity (p * q) := by
  rcases lt_or_gt_of_ne p_ne with hp | hp <;> rcases lt_or_gt_of_ne q_ne with hq | hq
  · rw [signedInfinity_of_neg hp, signedInfinity_of_neg hq, signedInfinity_of_pos (mul_pos_of_neg_of_neg hp hq)]
    decide +kernel
  · rw [signedInfinity_of_neg hp, signedInfinity_of_pos hq, signedInfinity_of_neg (mul_neg_of_neg_of_pos hp hq)]
    decide +kernel
  · rw [signedInfinity_of_pos hp, signedInfinity_of_neg hq, signedInfinity_of_neg (mul_neg_of_pos_of_neg hp hq)]
    decide +kernel
  · rw [signedInfinity_of_pos hp, signedInfinity_of_pos hq, signedInfinity_of_pos (mul_pos hp hq)]
    decide +kernel

/-- An infinite product of a number and an infinite factor. -/
theorem timesPlain_infinite (determinate : isIndeterminateProduct x y = false)
    (number : x.value? = none ∨ y.value? = none) (x_ne_zero : x.isZero = false) (y_ne_zero : y.isZero = false)
    (x_ne_one : x.isOne = false) (y_ne_one : y.isOne = false)
    (read : (mul x y).asMultiple = (q, infinity)) (q_ne : q ≠ 0) :
    timesPlain raise x y = signedInfinity q := by
  have powers : productOfPowers raise infinity.factors = (1, infinity) := rfl
  rw [timesPlain_eq determinate number x_ne_zero y_ne_zero x_ne_one y_ne_one, read]
  dsimp only
  rw [powers]
  dsimp only
  rw [mul_one, if_pos ⟨rfl, q_ne⟩]

theorem signedInfinity_side_mul (p_ne : p ≠ 0) (q_ne : q ≠ 0) :
    signedInfinity (side p * q) = signedInfinity (p * q) := by
  rcases lt_or_gt_of_ne p_ne with hp | hp
  · rw [side, if_neg hp.not_gt, neg_one_mul]
    rcases lt_or_gt_of_ne q_ne with hq | hq
    · rw [signedInfinity_of_pos (neg_pos.mpr hq), signedInfinity_of_pos (mul_pos_of_neg_of_neg hp hq)]
    · rw [signedInfinity_of_neg (neg_neg_of_pos hq), signedInfinity_of_neg (mul_neg_of_neg_of_pos hp hq)]
  · rw [side, if_pos hp, one_mul]
    rcases lt_or_gt_of_ne q_ne with hq | hq
    · rw [signedInfinity_of_neg hq, signedInfinity_of_neg (mul_neg_of_pos_of_neg hp hq)]
    · rw [signedInfinity_of_pos hq, signedInfinity_of_pos (mul_pos hp hq)]

/-- What the rules for products ask about an infinite operand. -/
structure IsInfinite (x : Expr) : Prop where
  infinite : x.hasInfiniteFactor = true
  defined : x ≠ undefined
  notNumber : x.value? = none
  notSum : x.isSum = false

theorem isInfinite_signedInfinity (p : Rat) : IsInfinite (signedInfinity p) := by
  rw [signedInfinity]
  split <;> exact ⟨by decide, by decide, rfl, rfl⟩

theorem asMultiple_signedInfinity_mul (p q : Rat) :
    (mul (signedInfinity p) (const q)).asMultiple = (side p * q, infinity) := by
  rw [signedInfinity, side]
  split <;> rfl

theorem IsInfinite.isZero (h : IsInfinite x) : x.isZero = false := by
  cases x <;> first | rfl | cases h.notNumber

theorem IsInfinite.isOne (h : IsInfinite x) : x.isOne = false := by
  cases x <;> first | rfl | cases h.notNumber

theorem IsInfinite.determinate (h : IsInfinite x) (q_ne : q ≠ 0) :
    isIndeterminateProduct x (const q) = false := by
  have finite := (isFinite_const q).finite
  simp [isIndeterminateProduct, h.defined, h.isZero, zero, q_ne, finite]

theorem signedInfinity_times_const (p_ne : p ≠ 0) (q : Rat) :
    (signedInfinity p).times (const q) = if q = 0 then undefined else signedInfinity (p * q) := by
  have infinite := isInfinite_signedInfinity p
  have plain : MultipliesPlainly (signedInfinity p) (const q) :=
    .number_right fun sum => absurd (infinite.notSum.symm.trans sum) Bool.false_ne_true
  rw [times_eq_timesPlain plain]
  split
  next vanishes =>
    rw [timesPlain, if_pos (by simp [isIndeterminateProduct, vanishes, isZero, infinite.infinite])]
  next q_ne =>
    by_cases q_one : q = 1
    · rw [q_one, mul_one]
      exact timesPlain_one_right (signedInfinity p)
    · rw [timesPlain_infinite (infinite.determinate q_ne) (.inl infinite.notNumber)
        infinite.isZero (by simp [isZero, q_ne]) infinite.isOne (by simp [isOne, q_one])
        (asMultiple_signedInfinity_mul p q) (mul_ne_zero (side_ne_zero p) q_ne), signedInfinity_side_mul p_ne q_ne]

theorem const_times_signedInfinity (p_ne : p ≠ 0) (q : Rat) :
    (const q).times (signedInfinity p) = if q = 0 then undefined else signedInfinity (p * q) := by
  rw [times_comm, signedInfinity_times_const p_ne]

end SymbolicAlgebra.Expr
