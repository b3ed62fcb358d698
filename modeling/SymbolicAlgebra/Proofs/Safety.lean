import SymbolicAlgebra.Proofs.Expr.Parts
import SymbolicAlgebra.Proofs.Hereditary.Evaluation
import SymbolicAlgebra.Proofs.Valuation.Simplification

/-! Expressions that divide safely. Only what is divided by and what is raised to anything
but a natural number must have a value; infinities, and heads without a value, may stand
elsewhere, also in the exponent of a positive number. Evaluation keeps this: powers are
joined only with powers of the same base, and where one of them has a value the base has
one. -/

namespace SymbolicAlgebra
open SymbolicAlgebra.Expr

namespace Valuation

variable {K : Type*} [Field K] [DecidableEq K] {V : Valuation K}
variable {a b e p r s t : Expr}

/-- A base of which every rational power has a value, as it has of a positive number. -/
def HasPowers (V : Valuation K) (b : Expr) : Prop :=
  ∃ x, V.Means b x ∧ ∀ q : ℚ, ∃ y, V.power x q = some y

/-- Every divisor has a value other than zero, and every power has a value, a natural number
as its exponent, or a base that has powers, whose exponent then needs no value. -/
def Safe (V : Valuation K) : Expr → Prop
  | .var _ | .const _ | .pi | .infinity | .undefined => True
  | .add a b | .sub a b | .mul a b => V.Safe a ∧ V.Safe b
  | .div a b => V.Safe a ∧ V.Defined (.div .one b)
  | .pow a b => V.Defined (.pow a b) ∨ (V.Safe a ∧ ∃ n : ℕ, V.Means b n) ∨ V.HasPowers a ∧ V.Safe b
  | .neg a | .app _ a => V.Safe a

theorem HasPowers.base (h : V.HasPowers b) : V.Defined b := by
  obtain ⟨x, has, -⟩ := h
  exact has.defined

theorem HasPowers.defined (h : V.HasPowers b) (q : ℚ) : V.Defined (.pow b (const q)) := by
  obtain ⟨x, has, powers⟩ := h
  obtain ⟨y, power⟩ := powers q
  exact (has.pow ((means_const q).mpr rfl) power).defined

theorem Defined.safe (h : V.Defined e) : V.Safe e := by
  induction e with
  | add a b iha ihb =>
      obtain ⟨x, y, left, right, -⟩ := means_add.mp h.means
      exact ⟨iha left.defined, ihb right.defined⟩
  | sub a b iha ihb =>
      obtain ⟨x, y, left, right, -⟩ := means_sub.mp h.means
      exact ⟨iha left.defined, ihb right.defined⟩
  | mul a b iha ihb =>
      obtain ⟨x, y, left, right, -⟩ := means_mul.mp h.means
      exact ⟨iha left.defined, ihb right.defined⟩
  | div a b iha ihb =>
      obtain ⟨x, y, left, right, y_ne, -⟩ := means_div.mp h.means
      exact ⟨iha left.defined, _, means_div.mpr ⟨1, y, means_one.mpr rfl, right, y_ne, rfl⟩⟩
  | pow a b => exact .inl h
  | neg a ih =>
      obtain ⟨x, inner, -⟩ := means_neg.mp h.means
      exact ih inner.defined
  | app f a ih =>
      obtain ⟨x, arg, -⟩ := (means_app f).mp h.means
      exact ih arg.defined
  | _ => trivial

/-- What is divided by and what is raised has a value, and so have all of its parts. -/
theorem Safe.part (h : V.Safe e) (member : p ∈ e.parts) : V.Safe p := by
  induction e generalizing p with
  | add a b iha ihb | sub a b iha ihb | mul a b iha ihb =>
      exact forall_operands h (fun _ => iha h.1) (fun _ => ihb h.2) _ member
  | div a b iha ihb =>
      obtain ⟨x, y, -, divisor, -⟩ := means_div.mp h.2.means
      exact forall_operands h (fun _ => iha h.1) (fun _ => ihb divisor.defined.safe) _ member
  | pow a b iha ihb =>
      rcases h with defined | ⟨base, n, natural⟩ | ⟨powers, exponent⟩
      · exact (defined.part member).safe
      · exact forall_operands (.inr (.inl ⟨base, n, natural⟩)) (fun _ => iha base)
          (fun _ => ihb natural.defined.safe) _ member
      · exact forall_operands (.inr (.inr ⟨powers, exponent⟩)) (fun _ => iha powers.base.safe)
          (fun _ => ihb exponent) _ member
  | neg a ih | app f a ih =>
      rcases List.mem_cons.mp member with rfl | inside
      · exact h
      · exact ih h inside
  | _ => exact List.mem_singleton.mp member ▸ h

theorem headClosed_safe : HeadClosed V.Safe where
  const _ := trivial
  undefined _ := trivial
  add := Iff.rfl
  mul := Iff.rfl
  app := Iff.rfl
  sub_parts := id
  neg_part := id
  signed _ := id

theorem Defined.natural_power (h : V.Defined b) {n : ℕ} (natural : V.Means e n) : V.Defined (.pow b e) :=
  (h.means.pow natural (V.power_nat _ n)).defined

theorem Safe.exponent (h : V.Safe (.pow b e)) : V.Safe e := by
  rcases h with defined | ⟨-, n, natural⟩ | ⟨-, exponent⟩
  · obtain ⟨x, y, -, exponent, -⟩ := means_pow.mp defined.means
    exact exponent.defined.safe
  · exact natural.defined.safe
  · exact exponent

theorem Safe.listedPower (h : V.Safe (.pow b e)) : V.Safe (listedPower (b, e)) := by
  rw [Valuation.listedPower]
  split
  next => exact h.exponent
  next => exact h

theorem Safe.pow_one (h : V.Safe e) : V.Safe (.pow e one) :=
  .inr (.inl ⟨h, 1, means_one.mpr Nat.cast_one.symm⟩)

theorem Safe.asPower (h : V.Safe e) : V.Safe (Valuation.listedPower e.asPower) := by
  unfold Expr.asPower
  split
  next => exact h.listedPower
  next => exact h
  next => exact h.pow_one.listedPower

theorem Defined.base (h : V.Defined (.pow b e)) : V.Defined b := by
  obtain ⟨x, y, base, -⟩ := means_pow.mp h.means
  exact base.defined

theorem Safe.pow_add (sum : ∀ ⦃x y⦄, V.Means s x → V.Means t y → V.Means r (x + y))
    (safe : V.Safe s → V.Safe t → V.Safe r) (h : V.Safe (.pow b s)) (k : V.Safe (.pow b t)) :
    V.Safe (.pow b r) := by
  have either (powers : V.HasPowers b) : V.Safe (.pow b r) :=
    .inr (.inr ⟨powers, safe h.exponent k.exponent⟩)
  -- Beside a power with a value, a natural power of the same base has one too.
  have joined (left : V.Defined (.pow b s)) (right : V.Defined (.pow b t)) : V.Safe (.pow b r) :=
    .inl (left.means.pow_add sum right.means).defined
  rcases h with left | ⟨base, n, natural⟩ | ⟨powers, -⟩
  · rcases k with right | ⟨-, m, natural⟩ | ⟨powers, -⟩
    · exact joined left right
    · exact joined left (left.base.natural_power natural)
    · exact either powers
  · rcases k with right | ⟨-, m, natural'⟩ | ⟨powers, -⟩
    · exact joined (right.base.natural_power natural) right
    · refine .inr (.inl ⟨base, n + m, ?_⟩)
      rw [Nat.cast_add]
      exact sum natural natural'
    · exact either powers
  · exact either powers

/-- A function that keeps values and safety may be applied to both operands of a power. -/
theorem Safe.pow_of_keeps {f : Expr → Expr} (values : ∀ ⦃e x⦄, V.Means e x → V.Means (f e) x)
    (base : V.Safe b → V.Safe (f b)) (exponent : V.Safe e → V.Safe (f e)) (h : V.Safe (.pow b e)) :
    V.Safe (.pow (f b) (f e)) := by
  rcases h with defined | ⟨safe, n, natural⟩ | ⟨⟨x, has, powers⟩, safe⟩
  · obtain ⟨x, y, left, right, has⟩ := means_pow.mp defined.means
    exact .inl ((values left).pow (values right) has).defined
  · exact .inr (.inl ⟨base safe, n, values natural⟩)
  · exact .inr (.inr ⟨⟨x, values has, powers⟩, exponent safe⟩)

variable [CharZero K]

theorem Safe.listedPower_plus (h : V.Safe (Valuation.listedPower (b, s)))
    (k : V.Safe (Valuation.listedPower (b, t))) : V.Safe (Valuation.listedPower (b, s.plus t)) := by
  unfold Valuation.listedPower at *
  split
  next isEuler =>
    rw [if_pos isEuler] at h k
    exact headClosed_safe.plus h k
  next notEuler =>
    rw [if_neg notEuler] at h k
    exact h.pow_add (fun _ _ first second => first.plus second) headClosed_safe.plus k

theorem powered_safe : Powered V.Safe fun b e => V.Safe (listedPower (b, e)) where
  asPower _ h := h.asPower
  plus h k := h.listedPower_plus k

section Raising
variable {times : Expr → Expr → Expr} (multiplies : V.Multiplies times) (keeps : SymbolicAlgebra.Keeps V.Safe times)
include multiplies keeps

/-- Where the base has powers, an exponent that goes inside is a number. -/
theorem safe_of_raisesTo_powers (raised : RaisesTo times b e r) (powers : V.HasPowers b) (h : V.Safe e) :
    V.Safe r := by
  have whole (integer : e.isInteger = true) : V.Safe r := by
    obtain ⟨k, rfl⟩ := exists_int_of_isInteger integer
    exact (means_of_raisesTo multiplies raised (powers.defined k).means.listedPower).defined.safe
  cases raised with
  | one => exact powers.base.safe
  | exp => exact headClosed_safe.exponential (keeps powers.base.safe h)
  | pow integer => exact whole integer
  | mul integer => exact whole integer
  | neg integer => exact whole integer
  | irreducible => exact .inr (.inr ⟨powers, h⟩)
  | _ => trivial

/-- A natural power needs no value of the base. It is taken inside until a power is met
that has one. -/
theorem safe_of_raisesTo_natural {n : ℕ} (raised : RaisesTo times b e r) (h : V.Safe b)
    (natural : V.Means e n) : V.Safe r := by
  induction raised generalizing n with
  | one => exact h
  | exp => exact headClosed_safe.exponential (keeps h natural.defined.safe)
  | pow integer joined ih =>
      rcases h with defined | ⟨base, m, exponent⟩ | ⟨powers, exponent⟩
      · have value := (defined.natural_power natural).means.listedPower
        exact (means_of_raisesTo multiplies (.pow integer joined) value).defined.safe
      · have product := multiplies exponent natural
        rw [← Nat.cast_mul] at product
        exact ih base product
      · have product := keeps exponent natural.defined.safe
        exact safe_of_raisesTo_powers multiplies keeps joined powers product
  | mul _ _ _ iha ihb => exact keeps (iha h.1 natural) (ihb h.2 natural)
  | neg _ _ ih =>
      have operand := ih h natural
      split
      next => exact headClosed_safe.negate operand
      next => exact operand
  | irreducible => exact .inr (.inl ⟨h, n, natural⟩)
  | _ => trivial

theorem safe_of_raisesTo (raised : RaisesTo times b e r) (h : V.Safe (listedPower (b, e))) : V.Safe r := by
  have whole (value : V.Defined (listedPower (b, e))) : V.Safe r :=
    (means_of_raisesTo multiplies raised value.means).defined.safe
  rw [listedPower] at h whole
  split at h
  next isEuler =>
    subst isEuler
    cases raised with
    | exp => exact headClosed_safe.exponential (keeps trivial h)
    | irreducible stays => cases stays.stays
    | _ => trivial
  next notEuler =>
    rw [if_neg notEuler] at whole
    rcases h with value | ⟨base, n, natural⟩ | ⟨powers, exponent⟩
    · exact whole value
    · exact safe_of_raisesTo_natural multiplies keeps raised base natural
    · exact safe_of_raisesTo_powers multiplies keeps raised powers exponent

end Raising

theorem keeps_timesWithin (depth : ℕ) : SymbolicAlgebra.Keeps V.Safe (timesWithin depth) := by
  induction depth with
  | zero => exact headClosed_safe.timesWithin_zero
  | succ depth ih =>
      apply headClosed_safe.timesWith powered_safe
      intro b e h
      exact safe_of_raisesTo (multiplies_timesWithin depth) ih (raisesTo_raiseWith _ b e) h

theorem Safe.times (h : V.Safe a) (k : V.Safe b) : V.Safe (a.times b) := keeps_timesWithin _ h k

theorem Safe.raise (h : V.Safe (.pow b e)) : V.Safe (b.raise e) :=
  safe_of_raisesTo (multiplies_timesWithin _) (keeps_timesWithin _) (raisesTo_raiseWith _ b e) h.listedPower

theorem Safe.dividedBy (h : V.Safe a) (k : V.Defined (.div .one b)) : V.Safe (a.dividedBy b) := by
  obtain ⟨x, y, -, divisor, y_ne, -⟩ := means_div.mp k.means
  rw [Expr.dividedBy]
  split
  next => exact ⟨h, k⟩
  split
  next => trivial
  split
  next => trivial
  split
  next => exact h
  next =>
    have inverse := divisor.pow ((means_const (-1)).mpr (by simp)) (V.power_inv y_ne)
    exact h.times (Safe.raise (.inl inverse.defined))

theorem Safe.evaluate (h : V.Safe e) : V.Safe e.evaluate := by
  have H := headClosed_safe (V := V)
  induction e with
  | add a b iha ihb => exact H.plus (iha h.1) (ihb h.2)
  | sub a b iha ihb => exact H.minus (iha h.1) (ihb h.2)
  | mul a b iha ihb => exact (iha h.1).times (ihb h.2)
  | div a b iha =>
      obtain ⟨x, y, one, divisor, y_ne, -⟩ := means_div.mp h.2.means
      exact (iha h.1).dividedBy ⟨_, means_div.mpr ⟨x, y, one, divisor.evaluate, y_ne, rfl⟩⟩
  | pow a b iha ihb => exact (h.pow_of_keeps (fun _ _ => Means.evaluate) iha ihb).raise
  | neg a ih => exact H.negate (ih h)
  | app f a ih => exact H.apply (ih h)
  | _ => trivial

theorem passClosed_safe : PassClosed V.Safe where
  toHeadClosed := headClosed_safe
  sub _ _ left right := ⟨left, right⟩
  evaluate := Safe.evaluate

end Valuation
end SymbolicAlgebra
