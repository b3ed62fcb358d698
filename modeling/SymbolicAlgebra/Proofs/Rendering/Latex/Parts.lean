import SymbolicAlgebra.Proofs.Arithmetic.Size
import SymbolicAlgebra.Proofs.Expr.Parts
import SymbolicAlgebra.Proofs.Rendering.Shown
import SymbolicAlgebra.Proofs.Valuation.Sum
import SymbolicAlgebra.Rendering.Latex

/-! The parts that a text is put together from: the terms of a sum without their signs, and
the items of a fraction. They have the values of the whole, they are no larger than it, and
the sums in them are sums of the whole. -/

namespace SymbolicAlgebra.Latex
open SymbolicAlgebra.Expr

/-- Sums, products, quotients and whole powers of numbers and of the symbol `x`. -/
def Arithmetic : Expr → Prop
  | .var name => name = "x"
  | .const _ => True
  | .add a b | .sub a b | .mul a b | .div a b => Arithmetic a ∧ Arithmetic b
  | .neg a => Arithmetic a
  | .pow a (.const k) => k.isInt = true ∧ Arithmetic a
  | _ => False

/-- The text is that of a sum, without parentheses. -/
def leavesSum (e : Expr) : Bool :=
  let fraction := Fraction.ofExpr false e
  fraction.coeff = 1 && fraction.denominator.isEmpty &&
    match fraction.numerator with
    | [item] => item.isSum
    | _ => false

/-- No sum inside the expression has a term after a minus sign that is written as a sum. -/
def NoSumSubtracted (e : Expr) : Prop :=
  ∀ s ∈ e.parts, s.isSum = true → ∀ t ∈ s.terms, (asSigned t).1 = true → leavesSum (asSigned t).2 = false

instance (e : Expr) : Decidable (NoSumSubtracted e) :=
  inferInstanceAs (Decidable (∀ s ∈ e.parts, s.isSum = true →
    ∀ t ∈ s.terms, (asSigned t).1 = true → leavesSum (asSigned t).2 = false))

/-- Where nothing is lost in the text. -/
def Legible (e : Expr) : Prop := Arithmetic e ∧ NoSumSubtracted e

variable {a b e f item : Expr} {k : Rat}

theorem inherited_arithmetic : Inherited Arithmetic where
  const _ := trivial
  add_parts := id
  sub_parts := id
  mul := Iff.rfl
  neg_part := id
  signed _ := id

theorem inherited_noSumSubtracted : Inherited NoSumSubtracted where
  const q := by simp [NoSumSubtracted, parts, isSum]
  add_parts signed :=
    ⟨fun s inLeft => signed s (List.mem_cons_of_mem _ (List.mem_append_left _ inLeft)),
      fun s inRight => signed s (List.mem_cons_of_mem _ (List.mem_append_right _ inRight))⟩
  sub_parts signed :=
    ⟨fun s inLeft => signed s (List.mem_cons_of_mem _ (List.mem_append_left _ inLeft)),
      fun s inRight => signed s (List.mem_cons_of_mem _ (List.mem_append_right _ inRight))⟩
  mul := by simp [NoSumSubtracted, parts, isSum, or_imp, forall_and]
  neg_part := by simp [NoSumSubtracted, parts, isSum]
  signed := by simp [NoSumSubtracted, parts, isSum]

theorem inherited_legible : Inherited Legible := inherited_arithmetic.and inherited_noSumSubtracted

theorem legible_div : Legible (.div a b) ↔ Legible a ∧ Legible b := by
  simp [Legible, Arithmetic, NoSumSubtracted, parts, isSum, or_imp, forall_and, and_and_and_comm]

theorem legible_pow : Legible (.pow a (.const k)) ↔ k.isInt = true ∧ Legible a := by
  simp [Legible, Arithmetic, NoSumSubtracted, parts, isSum, or_imp, forall_and, and_assoc]

/-- A property that expressions hand on to whatever is written of them: it is inherited, also
by the parts of a quotient, and does not depend on the sign of an exponent. -/
structure HandedOn (P : Expr → Prop) : Prop extends Inherited P where
  div {a b : Expr} : P (.div a b) ↔ P a ∧ P b
  base {a : Expr} {k : Rat} : P (.pow a (.const k)) → P a
  opposite {a : Expr} {k : Rat} : P (.pow a (.const k)) → P (.pow a (.const (-k)))

theorem handedOn_legible : HandedOn Legible where
  toInherited := inherited_legible
  div := legible_div
  base h := (legible_pow.mp h).2
  opposite h := by
    obtain ⟨whole, base⟩ := legible_pow.mp h
    exact legible_pow.mpr ⟨by simpa [Rat.isInt] using whole, base⟩

/-! The terms of a sum, with their signs and without them. -/

theorem termsWithSign_ne_nil (negative : Bool) (e : Expr) : e.termsWithSign negative ≠ [] := by
  induction e generalizing negative with
  | add a b iha _ => exact List.append_ne_nil_of_left_ne_nil (iha negative) _
  | sub a b iha _ => exact List.append_ne_nil_of_left_ne_nil (iha negative) _
  | neg a ih => exact ih (!negative)
  | _ => exact List.cons_ne_nil _ _

theorem asSigned_mul (a b : Expr) : asSigned (.mul a b) =
    if (Expr.mul a b).asMultiple.1 < 0 then
      (true, scaled (-(Expr.mul a b).asMultiple.1) (Expr.mul a b).asMultiple.2)
    else (false, .mul a b) := by
  simp only [asSigned]
  split
  next negative =>
    have positive := neg_pos.mpr negative
    have opposite_ne : -(Expr.mul a b).asMultiple.1 ≠ -1 := (neg_one_lt_zero.trans positive).ne'
    rw [scaled, scaledWith, if_neg positive.ne', if_neg opposite_ne]
  next => rfl

theorem HandedOn.asSigned {P : Expr → Prop} (H : HandedOn P) (h : P e) : P (asSigned e).2 := by
  induction e with
  | neg a ih => exact ih (H.neg_part h)
  | const q =>
      rw [Latex.asSigned]
      split
      next => exact H.const _
      next => exact h
  | mul a b =>
      rw [asSigned_mul]
      split
      next => exact H.scaled _ (H.asMultiple h)
      next => exact h
  | div a b ih =>
      obtain ⟨above, below⟩ := H.div.mp h
      exact H.div.mpr ⟨ih above, below⟩
  | _ => exact h

theorem size_asSigned_le (e : Expr) : (asSigned e).2.size ≤ e.size := by
  induction e with
  | neg a ih =>
      simp only [asSigned, size]
      omega
  | const q =>
      rw [asSigned]
      split <;> exact Nat.le_refl _
  | mul a b =>
      rw [asSigned_mul]
      split
      next negative => exact size_scaled_neg_le negative
      next => exact Nat.le_refl _
  | div a b ih =>
      simp only [asSigned, size]
      omega
  | _ => exact Nat.le_refl _

theorem means_asSigned {K : Type*} [Field K] [DecidableEq K] [CharZero K] {V : Valuation K} {x : K}
    (h : V.Means e x) : ∃ y, V.Means (asSigned e).2 y ∧ sign K (asSigned e).1 * y = x := by
  induction e generalizing x with
  | neg a ih =>
      obtain ⟨y, inner, rfl⟩ := Valuation.means_neg.mp h
      obtain ⟨z, magnitude, rfl⟩ := ih inner
      exact ⟨z, magnitude, by rw [asSigned, sign_not, neg_mul]⟩
  | const q =>
      obtain rfl := (Valuation.means_const q).mp h
      rw [asSigned]
      split
      next => exact ⟨_, (Valuation.means_const _).mpr rfl, by simp⟩
      next => exact ⟨_, h, one_mul _⟩
  | mul a b =>
      obtain ⟨y, rest, rfl⟩ := h.asMultiple
      rw [asSigned_mul]
      split
      next => exact ⟨_, rest.scaled _, by simp⟩
      next => exact ⟨_, h, one_mul _⟩
  | div a b ih =>
      obtain ⟨y, z, above, below, z_ne, rfl⟩ := Valuation.means_div.mp h
      obtain ⟨w, magnitude, rfl⟩ := ih above
      refine ⟨w / z, Valuation.means_div.mpr ⟨w, z, magnitude, below, z_ne, rfl⟩, ?_⟩
      exact (mul_div_assoc _ _ _).symm
  | _ => exact ⟨x, h, one_mul x⟩

/-! The items of a fraction. -/

/-- What is written as a fraction or as a row of factors. -/
def isProduct : Expr → Bool
  | .mul _ _ | .div _ _ | .neg _ => true
  | .pow _ (.const k) => k < 0
  | _ => false

theorem leavesSum_eq (single : isProduct e = false) : leavesSum e = e.isSum := by
  cases e with
  | mul a b | div a b | neg a => cases single
  | const q => simp [leavesSum, Fraction.ofExpr, isSum]
  | pow a b =>
      have alone : ∀ f : Fraction, f = Fraction.ofFactor false (.pow a b) →
          Fraction.ofExpr false (.pow a b) = f → leavesSum (.pow a b) = false := by
        rintro f rfl same
        simp [leavesSum, same, Fraction.ofFactor, isSum]
      cases b with
      | const k =>
          have nonneg : ¬ k < 0 := of_decide_eq_false single
          have unit : k ≠ -1 := by
            rintro rfl
            exact nonneg (by decide)
          exact alone _ rfl (by rw [Fraction.ofExpr, if_neg unit, if_neg nonneg])
      | _ => exact alone _ rfl rfl
  | _ => rfl

/-- An item of a fraction is no fraction itself. -/
structure Item (e item : Expr) : Prop where
  single : isProduct item = false
  size : item.size ≤ e.size
  inherits {P : Expr → Prop} : HandedOn P → P e → P item

def Fraction.items (f : Fraction) : List Expr := f.numerator ++ f.denominator

theorem Fraction.mem_items_mul {f g : Fraction} :
    item ∈ (f.mul g).items ↔ item ∈ f.items ∨ item ∈ g.items := by
  simp only [items, mul, List.mem_append]
  tauto

theorem Fraction.mem_items_ofFactor {inverted : Bool} : item ∈ (ofFactor inverted e).items ↔ item = e := by
  cases inverted <;> simp [items, ofFactor]

theorem item_self (single : isProduct e = false) : Item e e := ⟨single, Nat.le_refl _, fun _ h => h⟩

theorem Item.within (h : Item a item) (size : a.size ≤ e.size)
    (part : ∀ {P : Expr → Prop}, HandedOn P → P e → P a) : Item e item :=
  ⟨h.single, h.size.trans size, fun H whole => h.inherits H (part H whole)⟩

theorem item_of_mem {inverted : Bool} (member : item ∈ (Fraction.ofExpr inverted e).items) :
    Item e item := by
  induction e generalizing inverted with
  | const q =>
      rw [Fraction.ofExpr] at member
      split at member
      next =>
        split at member
        next =>
          obtain rfl := List.mem_singleton.mp member
          exact item_self rfl
        next => cases member
      next => cases member
  | neg a ih =>
      exact (ih member).within (Nat.le_add_left _ _) fun H => H.neg_part
  | mul a b iha ihb =>
      rcases Fraction.mem_items_mul.mp member with left | right
      · exact (iha left).within (by rw [size]; omega) fun H h => (H.mul.mp h).1
      · exact (ihb right).within (by rw [size]; omega) fun H h => (H.mul.mp h).2
  | div a b iha ihb =>
      rcases Fraction.mem_items_mul.mp member with above | below
      · exact (iha above).within (by rw [size]; omega) fun H h => (H.div.mp h).1
      · exact (ihb below).within (by rw [size]; omega) fun H h => (H.div.mp h).2
  | pow a b iha =>
      cases b with
      | const k =>
          rw [Fraction.ofExpr] at member
          split at member
          next => exact (iha member).within (by rw [size]; omega) fun H => H.base
          split at member
          next negative =>
            obtain rfl := Fraction.mem_items_ofFactor.mp member
            exact ⟨decide_eq_false (by simpa using negative.le), Nat.le_refl _, fun H => H.opposite⟩
          next nonneg =>
            obtain rfl := Fraction.mem_items_ofFactor.mp member
            exact item_self (decide_eq_false nonneg)
      | _ =>
          obtain rfl := Fraction.mem_items_ofFactor.mp member
          exact item_self rfl
  | _ =>
      obtain rfl := Fraction.mem_items_ofFactor.mp member
      exact item_self rfl

/-- The value of a fraction. -/
def FractionMeans {K : Type*} [Field K] [DecidableEq K] (V : Valuation K) (f : Fraction) (x : K) : Prop :=
  ∃ u v, V.MeansProduct f.numerator u ∧ V.MeansProduct f.denominator v ∧ v ≠ 0 ∧ f.coeff * (u / v) = x

section Value
variable {K : Type*} [Field K] [DecidableEq K] {V : Valuation K} {x y : K} {g h : Fraction} {inverted : Bool}

theorem FractionMeans.mul [CharZero K] (hx : FractionMeans V g x) (hy : FractionMeans V h y) :
    FractionMeans V (g.mul h) (x * y) := by
  obtain ⟨u, v, above, below, v_ne, rfl⟩ := hx
  obtain ⟨u', v', above', below', v'_ne, rfl⟩ := hy
  refine ⟨u * u', v * v', above.append above', below.append below', mul_ne_zero v_ne v'_ne, ?_⟩
  rw [Fraction.mul, Rat.cast_mul, mul_div_mul_comm, mul_mul_mul_comm]

theorem fractionMeans_ofFactor (means : V.Means e x) (nonzero : inverted = true → x ≠ 0) :
    FractionMeans V (Fraction.ofFactor inverted e) (placed inverted x) := by
  cases inverted with
  | false =>
      refine ⟨x, 1, means.meansProduct, Valuation.meansProduct_nil, one_ne_zero, ?_⟩
      simp [Fraction.ofFactor, placed]
  | true =>
      refine ⟨1, x, Valuation.meansProduct_nil, means.meansProduct, nonzero rfl, ?_⟩
      simp [Fraction.ofFactor, placed]

theorem fractionMeans_ofExpr [CharZero K] (means : V.Means e x) (nonzero : inverted = true → x ≠ 0) :
    FractionMeans V (Fraction.ofExpr inverted e) (placed inverted x) := by
  induction e generalizing x inverted with
  | const q =>
      obtain rfl := (Valuation.means_const _).mp means
      have number (r : ℚ) : FractionMeans V ⟨r, [], []⟩ (r : K) :=
        ⟨1, 1, Valuation.meansProduct_nil, Valuation.meansProduct_nil, one_ne_zero, by simp⟩
      cases inverted with
      | false => exact number q
      | true =>
          have q_ne : q ≠ 0 := Rat.cast_ne_zero.mp (nonzero rfl)
          have inverse : placed true (q : K) = ((q⁻¹ : ℚ) : K) := (Rat.cast_inv q).symm
          rw [Fraction.ofExpr, if_pos rfl, if_neg q_ne, inverse]
          exact number q⁻¹
  | neg a ih =>
      obtain ⟨y, inner, rfl⟩ := Valuation.means_neg.mp means
      obtain ⟨u, v, above, below, v_ne, same⟩ := ih inner fun h => neg_ne_zero.mp (nonzero h)
      refine ⟨u, v, above, below, v_ne, ?_⟩
      rw [placed_neg, ← same, Fraction.ofExpr, Rat.cast_neg, neg_mul]
  | mul a b iha ihb =>
      obtain ⟨y, z, left, right, rfl⟩ := Valuation.means_mul.mp means
      rw [placed_mul]
      exact (iha left fun h => left_ne_zero_of_mul (nonzero h)).mul
        (ihb right fun h => right_ne_zero_of_mul (nonzero h))
  | div a b iha ihb =>
      obtain ⟨y, z, left, right, z_ne, rfl⟩ := Valuation.means_div.mp means
      rw [placed_div]
      exact (iha left fun h => (div_ne_zero_iff.mp (nonzero h)).1).mul (ihb right fun _ => z_ne)
  | pow a b iha =>
      cases b with
      | const k =>
          obtain ⟨y, z, base, exponent, has⟩ := Valuation.means_pow.mp means
          obtain rfl := (Valuation.means_const _).mp exponent
          rw [Fraction.ofExpr]
          split
          next unit =>
            rw [unit] at has
            have y_ne := V.base_ne_zero_of_power_neg (by decide) has
            have inverse := V.power_inv y_ne
            rw [Rat.cast_neg, Rat.cast_one, inverse] at has
            obtain rfl := Option.some.inj has
            rw [placed_inv]
            exact iha base fun _ => y_ne
          split
          next negative =>
            have opposite := V.power_neg_of_neg negative has
            have x_ne := V.ne_zero_of_power_neg negative has
            have power : V.Means (.pow a (.const (-k))) x⁻¹ :=
              base.pow ((Valuation.means_const _).mpr rfl) opposite
            have factor : FractionMeans V (Fraction.ofFactor (!inverted) (.pow a (.const (-k)))) _ :=
              fractionMeans_ofFactor power fun _ => inv_ne_zero x_ne
            rwa [placed_inv, Bool.not_not] at factor
          next => exact fractionMeans_ofFactor means nonzero
      | _ => exact fractionMeans_ofFactor means nonzero
  | _ => exact fractionMeans_ofFactor means nonzero

end Value

end SymbolicAlgebra.Latex
