import SymbolicAlgebra.Proofs.Safety
import SymbolicAlgebra.Proofs.Hereditary.CanonicalForm
import SymbolicAlgebra.Proofs.Valuation.CanonicalForm

/-! Normal form, expansion and canonical form divide safely where the expression does.
In a factored product a negative exponent belongs to a power that has a value, so the
denominator of a quotient has one and is not zero. -/

namespace SymbolicAlgebra.Valuation
open SymbolicAlgebra.Expr

variable {K : Type*} [Field K] [DecidableEq K] [CharZero K] {V : Valuation K}
variable {a b e : Expr} {t : Exponents} {p : FactoredProduct} {next : Expr → Expr}

/-- A power with a negative exponent divides safely only if it has a value. -/
theorem Safe.defined_of_neg {q : ℚ} (h : V.Safe (.pow b (const q))) (q_neg : q < 0) :
    V.Defined (.pow b (const q)) := by
  rcases h with defined | ⟨-, n, natural⟩ | ⟨powers, -⟩
  · exact defined
  · rw [means_const, ← Rat.cast_natCast, Rat.cast_inj] at natural
    exact absurd q_neg (not_lt.mpr (natural ▸ n.cast_nonneg))
  · exact powers.defined q

theorem Safe.splitQuotient (h : V.Safe e) : ∀ f ∈ e.splitQuotient.2, V.Safe f := by
  induction e with
  | const q => simp [Expr.splitQuotient]
  | neg a ih => exact ih h
  | mul a b iha ihb => exact List.forall_mem_append.mpr ⟨iha h.1, ihb h.2⟩
  | div a b iha =>
      simp only [Expr.splitQuotient]
      split
      next => exact List.forall_mem_singleton.mpr h
      next =>
        obtain ⟨x, y, -, divisor, y_ne, -⟩ := means_div.mp h.2.means
        obtain ⟨w, factors, rfl⟩ := divisor.splitQuotient
        have inverses := factors.inverses (right_ne_zero_of_mul y_ne)
        exact List.forall_mem_append.mpr ⟨iha h.1, fun f member => (inverses.1 f member).safe⟩
  | _ => exact List.forall_mem_singleton.mpr h

/-- A table of exponents that stands for powers which divide safely. -/
def SafeExponents (V : Valuation K) (t : Exponents) : Prop :=
  ∀ entry ∈ t, V.Safe (.pow entry.1 (const entry.2))

structure SafeFactored (V : Valuation K) (p : FactoredProduct) : Prop where
  exponents : V.SafeExponents p.exponents
  symbolic : ∀ f ∈ p.symbolic, V.Safe f

theorem SafeExponents.add {q : ℚ} (h : V.SafeExponents t) (k : V.Safe (.pow b (const q))) :
    V.SafeExponents (Tally.add cmp b q t) := by
  refine Tally.forall_mem_add k ?_ h
  intro entry member same
  obtain rfl := eq_of_cmp same
  exact (h entry member).pow_add (fun _ _ => means_const_add) (fun _ _ => trivial) k

theorem SafeFactored.mulFactor (h : V.SafeFactored p) (k : V.Safe e) : V.SafeFactored (p.mulFactor e) := by
  cases e with
  | const q => exact ⟨h.exponents, h.symbolic⟩
  | pow base exponent =>
      cases exponent with
      | const q => exact ⟨h.exponents.add k, h.symbolic⟩
      | _ =>
          exact ⟨h.exponents,
            List.forall_mem_append.mpr ⟨h.symbolic, List.forall_mem_singleton.mpr k⟩⟩
  | _ => exact ⟨h.exponents.add k.pow_one, h.symbolic⟩

theorem SafeFactored.mulExpr (h : V.SafeFactored p) (k : V.Safe e) : V.SafeFactored (p.mulExpr e) :=
  List.foldlRecOn (motive := V.SafeFactored) _ _ ⟨h.exponents, h.symbolic⟩
    fun _ accumulated f member => accumulated.mulFactor (k.splitQuotient f member)

theorem SafeExponents.toExpr (q : ℚ) (h : V.SafeExponents t) : V.Safe (t.toExpr q) := by
  rw [Exponents.toExpr]
  split
  next => trivial
  next =>
    refine List.foldlRecOn (motive := V.Safe) _ _ trivial ?_
    intro product safe entry kept
    exact safe.times (h entry (List.mem_filter.mp kept).1).raise

theorem SafeFactored.toExpr (h : V.SafeFactored p) : V.Safe p.toExpr :=
  List.foldlRecOn (motive := V.Safe) _ _ (h.exponents.toExpr p.coeff)
    fun _ product f member => product.times (h.symbolic f member)

/-- The denominator has a value other than zero, as each of its powers stands for one with
a negative exponent. -/
theorem SafeFactored.divisors (h : V.SafeFactored p) :
    ∃ y, V.Means (p.divisors.toExpr 1) y ∧ y ≠ 0 := by
  have negative : ∀ entry ∈ p.exponents.filter (fun entry => entry.2 < 0), entry.2 < 0 :=
    fun entry member => of_decide_eq_true (List.mem_filter.mp member).2
  have defined : ∀ f ∈ listedPowers (p.exponents.filter fun entry => entry.2 < 0), V.Defined f := by
    intro f member
    obtain ⟨entry, kept, rfl⟩ := List.mem_map.mp member
    exact (h.exponents entry (List.mem_filter.mp kept).1).defined_of_neg (negative entry kept)
  obtain ⟨x_ne, turned⟩ := MeansProduct.turned ⟨defined, rfl⟩ negative
  have denominator := means_exponents 1 turned
  rw [Rat.cast_one, one_mul] at denominator
  exact ⟨_, denominator, inv_ne_zero x_ne⟩

/-- Only polynomials are cancelled, and these have values. -/
theorem SafeFactored.cancelled? (h : V.SafeFactored p) (cancelled : p.cancelled? = some e) : V.Safe e := by
  obtain ⟨terms, lowest, rfl⟩ := FactoredProduct.cancelled?_eq_some cancelled
  obtain ⟨name, s, d, -, left, -⟩ := cancelGcd?_eq_some lowest
  obtain ⟨y, denominator, y_ne⟩ := h.divisors
  exact (meansQuotient_cancelGcd? (means_of_ofExpr? left) denominator y_ne lowest).quotient.defined.safe

theorem safe_linear (m : LinearForm) : V.Safe m.toExpr := by
  simp only [LinearForm.toExpr]
  split
  next => trivial
  next name _ =>
    have term : V.Safe ((const m.slope).times (var name)) := Safe.times trivial trivial
    split
    next => trivial
    split
    next => exact term
    next => exact headClosed_safe.plus term trivial

theorem Safe.linearized (h : V.Safe e) : V.Safe e.linearized := by
  rw [Expr.linearized]
  cases LinearForm.ofExpr? e with
  | none => exact h
  | some m => exact safe_linear m

theorem safe_linearPower {r : Expr} {n : ℕ} (natural : V.Means b n) (taken : linearPower? a b = some r) :
    V.Safe r := by
  obtain ⟨k, m, rfl, -, read, factored⟩ := linearPower?_eq_some taken
  obtain ⟨name, scale, -, -, -, rfl⟩ := LinearForm.factoredPower?_eq_some factored
  have monic : V.Safe (if m.offset / m.slope = 0 then var name
      else (var name).plus (const (m.offset / m.slope))) := by
    split
    next => trivial
    next => exact headClosed_safe.plus trivial trivial
  have power := Safe.raise (.inr (.inl ⟨monic, n, natural⟩))
  exact Safe.times trivial power

/-- A slope is only taken out of a power to a number. -/
theorem Safe.normalPower (h : V.Safe (.pow a b)) : V.Safe (normalPower a b) := by
  have whole (defined : V.Defined (.pow a b)) : V.Safe (Expr.normalPower a b) :=
    defined.means.normalPower.defined.safe
  rcases h with defined | ⟨base, n, natural⟩ | ⟨powers, exponent⟩
  · exact whole defined
  · rw [Expr.normalPower]
    split
    next taken => exact passClosed_safe.simplify (safe_linearPower natural taken)
    next => exact Safe.raise (.inr (.inl ⟨base, n, natural⟩))
  · cases number : b.value? with
    | some k =>
        obtain rfl := eq_const_of_value? number
        exact whole (powers.defined k)
    | none =>
        have kept : linearPower? a b = none := by cases b <;> first | rfl | cases number
        rw [Expr.normalPower, kept]
        exact Safe.raise (.inr (.inr ⟨powers, exponent⟩))

section NormalForm
variable (values : V.Keeps next) (safe : ∀ ⦃e⦄, V.Safe e → V.Safe (next e))
include safe

theorem Safe.normalProduct (h : V.Safe e) : V.Safe (normalProduct next e) := by
  have factored : V.SafeFactored (e.splitQuotient.2.foldl (fun product f => product.mulExpr (next f))
      (.ofCoeff e.splitQuotient.1)) := by
    refine List.foldlRecOn (motive := V.SafeFactored) _ _ ⟨List.forall_mem_nil _, List.forall_mem_nil _⟩ ?_
    intro product accumulated f member
    exact accumulated.mulExpr (safe (h.splitQuotient f member))
  rw [Expr.normalProduct]
  dsimp only
  split
  next => trivial
  split
  next =>
    cases cancelled : (FactoredProduct.cancelled? _) with
    | none => exact factored.toExpr
    | some _ => exact factored.cancelled? cancelled
  next => exact factored.toExpr

include values

theorem Safe.normalLevel (limit : ℕ) (h : V.Safe e) : V.Safe (normalLevel limit next e) := by
  unfold Expr.normalLevel
  split
  next => exact passClosed_safe.simplify h
  cases e with
  | add a b => exact headClosed_safe.plus (safe h.1) (safe h.2)
  | sub a b => exact headClosed_safe.minus (safe h.1) (safe h.2)
  | neg a => exact headClosed_safe.negate (safe h)
  | mul a b => exact Safe.normalProduct safe h
  | div a b => exact Safe.normalProduct safe h
  | pow a b => exact (h.pow_of_keeps values (safe ·) (safe ·)).normalPower
  | app f a => exact Safe.linearized (safe h)
  | _ => trivial

end NormalForm

theorem safe_normalizeWithin (limit depth : ℕ) : ∀ ⦃e⦄, V.Safe e → V.Safe (normalizeWithin limit depth e) := by
  induction depth with
  | zero => exact fun _ h => h
  | succ depth ih => exact fun _ h => h.normalLevel (keeps_normalizeWithin limit depth) ih limit

theorem Safe.normalizeSized (limit : ℕ) (h : V.Safe e.simplify) : V.Safe (e.normalizeSized limit) :=
  safe_normalizeWithin limit _ h

theorem Safe.expand (h : V.Safe e) : V.Safe e.expand := by
  induction e with
  | add a b iha ihb => exact headClosed_safe.plus (iha h.1) (ihb h.2)
  | sub a b iha ihb => exact headClosed_safe.minus (iha h.1) (ihb h.2)
  | neg a ih => exact headClosed_safe.negate (ih h)
  | mul a b iha ihb =>
      exact headClosed_safe.expandTimes (fun _ _ => Safe.times) (iha h.1) (ihb h.2)
  | div a b iha =>
      obtain ⟨x, y, one, divisor, y_ne, -⟩ := means_div.mp h.2.means
      exact (iha h.1).dividedBy ⟨_, means_div.mpr ⟨x, y, one, divisor.expand, y_ne, rfl⟩⟩
  | _ => exact h

theorem Safe.canonicalize (passes : ℕ) (h : V.Safe e.simplify) : V.Safe (e.canonicalize passes) := by
  have factored := passClosed_safe.simplifyWithin passes (h.normalizeSized normalSizeLimit)
  unfold Expr.canonicalize
  dsimp only
  split
  next => exact passClosed_safe.simplifyWithin passes factored.expand
  next => exact factored

end SymbolicAlgebra.Valuation
