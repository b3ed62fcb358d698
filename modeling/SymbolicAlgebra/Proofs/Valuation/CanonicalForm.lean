import SymbolicAlgebra.CanonicalForm
import SymbolicAlgebra.Proofs.Arithmetic.Expansion
import SymbolicAlgebra.Proofs.NormalForm.Recursion
import SymbolicAlgebra.Proofs.Valuation.Cancellation
import SymbolicAlgebra.Proofs.Valuation.Linear
import SymbolicAlgebra.Proofs.Valuation.Real

/-! Normal form, expansion and canonical form keep the value of an expression. -/

namespace SymbolicAlgebra.Valuation
open SymbolicAlgebra.Expr

variable {K : Type*} [Field K] [DecidableEq K] [CharZero K] {V : Valuation K}
variable {a b e : Expr} {l : List Expr} {p : FactoredProduct} {next : Expr → Expr} {x y z : K}

/-- A function on expressions that keeps every value. -/
def Keeps (V : Valuation K) (f : Expr → Expr) : Prop := ∀ ⦃e x⦄, V.Means e x → V.Means (f e) x

theorem MeansFactored.foldl_mulExpr (keeps : V.Keeps next) (h : V.MeansFactored p z)
    (k : V.MeansProduct l x) :
    V.MeansFactored (l.foldl (fun product f => product.mulExpr (next f)) p) (z * x) := by
  induction l generalizing p z x with
  | nil => simpa [← k.2] using h
  | cons f rest ih =>
      obtain ⟨u, v, first, others, rfl⟩ := meansProduct_cons.mp k
      rw [← mul_assoc]
      exact ih (h.mulExpr (keeps first)) others

theorem Means.normalProduct (keeps : V.Keeps next) (h : V.Means e x) :
    V.Means (normalProduct next e) x := by
  obtain ⟨y, factors, rfl⟩ := h.splitQuotient
  have product := (meansFactored_ofCoeff e.splitQuotient.1).foldl_mulExpr keeps factors
  rw [Expr.normalProduct]
  dsimp only
  split
  next vanishing =>
    obtain ⟨u, v, -, -, same⟩ := product
    rw [← same, vanishing, Rat.cast_zero, zero_mul, zero_mul]
    exact means_zero.mpr rfl
  split
  next plain =>
    rw [List.isEmpty_iff] at plain
    cases cancelled : (FactoredProduct.cancelled? _) with
    | none => exact product.toExpr
    | some _ => exact product.cancelled? plain cancelled
  next => exact product.toExpr

theorem Means.normalLevel (keeps : V.Keeps next) (limit : ℕ) (h : V.Means e x) :
    V.Means (normalLevel limit next e) x := by
  unfold Expr.normalLevel
  split
  next => exact h.simplify
  cases e with
  | add a b =>
      obtain ⟨y, z, left, right, rfl⟩ := means_add.mp h
      exact (keeps left).plus (keeps right)
  | sub a b =>
      obtain ⟨y, z, left, right, rfl⟩ := means_sub.mp h
      exact (keeps left).minus (keeps right)
  | neg a =>
      obtain ⟨y, inner, rfl⟩ := means_neg.mp h
      exact (keeps inner).negate
  | mul a b => exact h.normalProduct keeps
  | div a b => exact h.normalProduct keeps
  | pow a b =>
      obtain ⟨y, z, base, exponent, has⟩ := means_pow.mp h
      exact ((keeps base).pow (keeps exponent) has).normalPower
  | app f a =>
      obtain ⟨y, arg, has⟩ := (means_app f).mp h
      exact (keeps arg).linearized.app has
  | _ => exact h

theorem keeps_normalizeWithin (limit depth : ℕ) : V.Keeps (normalizeWithin limit depth) := by
  induction depth with
  | zero =>
      intro e x h
      exact h
  | succ depth ih =>
      intro e x h
      exact h.normalLevel ih limit

theorem Means.normalizeSized (limit : ℕ) (h : V.Means e x) : V.Means (e.normalizeSized limit) x :=
  keeps_normalizeWithin limit _ h.simplify

theorem Means.multiplied {r : Expr} (steps : Multiplied a b r) (h : V.Means a x)
    (k : V.Means b y) : V.Means r (x * y) := by
  induction steps generalizing x y with
  | times => exact h.times k
  | add _ _ iha ihb =>
      obtain ⟨u, v, first, second, rfl⟩ := means_add.mp h
      rw [add_mul]
      exact (iha first k).plus (ihb second k)
  | sub _ _ iha ihb =>
      obtain ⟨u, v, first, second, rfl⟩ := means_sub.mp h
      rw [sub_mul]
      exact (iha first k).minus (ihb second k)
  | swap _ ih =>
      rw [mul_comm]
      exact ih k h

theorem Means.expandTimes (h : V.Means a x) (k : V.Means b y) :
    V.Means (expandTimes a b) (x * y) :=
  .multiplied (expandTimes_multiplied a b) h k

theorem Means.expand (h : V.Means e x) : V.Means e.expand x := by
  induction e generalizing x with
  | add a b iha ihb =>
      obtain ⟨y, z, left, right, rfl⟩ := means_add.mp h
      exact (iha left).plus (ihb right)
  | sub a b iha ihb =>
      obtain ⟨y, z, left, right, rfl⟩ := means_sub.mp h
      exact (iha left).minus (ihb right)
  | neg a ih =>
      obtain ⟨y, inner, rfl⟩ := means_neg.mp h
      exact (ih inner).negate
  | mul a b iha ihb =>
      obtain ⟨y, z, left, right, rfl⟩ := means_mul.mp h
      exact (iha left).expandTimes (ihb right)
  | div a b iha ihb =>
      obtain ⟨y, z, left, right, z_ne, rfl⟩ := means_div.mp h
      exact (iha left).dividedBy (ihb right) z_ne
  | _ => exact h

theorem Means.canonicalize (passes : ℕ) (h : V.Means e x) : V.Means (e.canonicalize passes) x := by
  have factored := (h.normalizeSized normalSizeLimit).simplifyWithin passes
  unfold Expr.canonicalize
  dsimp only
  split
  next => exact factored.expand.simplifyWithin passes
  next => exact factored

/-- A divisor with a value is not zero there, so evaluation keeps no division. -/
theorem Defined.divisionFree_simplify (h : V.Defined e) : DivisionFree e.simplify := by
  apply hereditary_divisionFree.passClosed.simplify_of_evaluate
  apply divisionFree_evaluate
  rintro _ member a b rfl vanishes
  obtain ⟨x, y, -, divisor, y_ne, -⟩ := means_div.mp (h.part member).means
  exact y_ne (means_zero.mp (vanishes ▸ divisor.evaluate)).symm

/-- Normal form, expansion and canonical form keep the value of every expression that
has one, in every field of characteristic zero and for every size limit and count. For
every limit the recursion of the normal form ends, and the normal form is its result. -/
theorem canonicalization_keeps_value (V : Valuation K) (e : Expr) (x : K)
    (has : V.value e = some x) (limit passes : ℕ) :
    V.value (e.normalizeSized limit) = some x ∧ V.value e.expand = some x ∧
      V.value (e.canonicalize passes) = some x ∧
      ∀ r, NormalizesTo limit e.simplify r ↔ r = e.normalizeSized limit := by
  refine ⟨Means.normalizeSized limit has, Means.expand has, Means.canonicalize passes has, ?_⟩
  intro r
  exact normalizesTo_iff (Means.defined has).divisionFree_simplify

/-- The real value of `(x^2 - 1)/(x - 1) * (2 x + 4)^(-2)` at two. -/
theorem canonicalization_keeps_real_value :
    let V := RealFunction.valuation fun _ => 2
    let x : Expr := .var "x"
    let e : Expr := .mul (.div (.sub (.pow x (.const 2)) .one) (.sub x .one))
      (.pow (.add (.mul (.const 2) x) (.const 4)) (.const (-2)))
    V.value e = some (3 / 64) ∧ V.value (e.normalizeSized 160) = some (3 / 64) ∧
      V.value e.expand = some (3 / 64) ∧ V.value (e.canonicalize 64) = some (3 / 64) ∧
      ∀ r, NormalizesTo 160 e.simplify r ↔ r = e.normalizeSized 160 := by
  intro V x e
  have two : V.Means x 2 := (means_var "x").mpr rfl
  have one : V.Means .one 1 := means_one.mpr rfl
  have constant (n : ℤ) : V.Means (.const n) n := (means_const _).mpr (by simp)
  have quotient : V.Means (.div (.sub (.pow x (.const 2)) .one) (.sub x .one)) 3 := by
    have square : V.Means (.pow x (.const 2)) 4 :=
      means_pow_int.mpr ⟨2, two, .inl (by norm_num), by norm_num⟩
    exact means_div.mpr ⟨_, _, square.sub one, two.sub one, by norm_num, by norm_num⟩
  have power : V.Means (.pow (.add (.mul (.const 2) x) (.const 4)) (.const (-2))) (1 / 64) := by
    have linear : V.Means (.add (.mul (.const 2) x) (.const 4)) 8 := by
      have sum := ((constant 2).mul two).add (constant 4)
      norm_num at sum
      exact sum
    exact means_pow_int.mpr ⟨8, linear, .inr (by norm_num), by norm_num⟩
  have has : V.Means e (3 / 64) := by
    have product := quotient.mul power
    norm_num at product
    exact product
  exact ⟨has, canonicalization_keeps_value V e (3 / 64) has 160 64⟩

end SymbolicAlgebra.Valuation
