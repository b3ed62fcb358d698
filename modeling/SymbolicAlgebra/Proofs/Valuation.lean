import Mathlib.Algebra.BigOperators.Group.List.Basic
import Mathlib.Algebra.CharZero.Defs
import Mathlib.Data.Rat.Cast.CharZero
import Mathlib.Tactic.FieldSimp
import Mathlib.Tactic.Ring
import SymbolicAlgebra.Identity.Function

/-! Values of expressions in a field. Division is that of the field and has no
result at zero; powers and heads are partial functions of which only the listed
identities are known. An identity says that where its left side has a value the
right side has the same one, so that it may be used from left to right. -/

namespace SymbolicAlgebra

namespace Fn

/-- Heads whose value at zero is zero. -/
def vanishingAtZero : List Fn := [.sin, .tan, .asin, .atan, .sinh, .tanh, .asinh, .atanh]

/-- Heads whose value at zero is one. -/
def unitAtZero : List Fn := [.cos, .sec, .cosh, .exp]

/-- Pairs in which the first head undoes the second. -/
def inversePairs : List (Fn × Fn) :=
  [(.sin, .asin), (.cos, .acos), (.tan, .atan), (.exp, .log), (.log, .exp)]

end Fn

structure Interpretation (K : Type*) [Field K] where
  pi : K
  power : K → K → Option K
  head : Fn → K → Option K
  power_int (b : K) (k : ℤ) : 0 ≤ k ∨ b ≠ 0 → power b k = some (b ^ k)
  one_power {p x : K} : power 1 p = some x → x = 1
  power_add {b p q x y : K} :
    power b p = some x → power b q = some y → power b (p + q) = some (x * y)
  power_power {b p x y : K} (k : ℤ) :
    power b p = some x → power x k = some y → power b (p * k) = some y
  exp_add {a b x y : K} :
    head .exp a = some x → head .exp b = some y → head .exp (a + b) = some (x * y)
  exp_power {a p x y : K} :
    head .exp a = some x → power x p = some y → head .exp (a * p) = some y
  inverse {f g : Fn} {a x y : K} : (f, g) ∈ Fn.inversePairs →
    head g a = some x → head f x = some y → y = a
  odd {f : Fn} {a x : K} : f.parity = .odd → head f (-a) = some x → head f a = some (-x)
  even {f : Fn} {a x : K} : f.parity = .even → head f (-a) = some x → head f a = some x
  zero_at_zero {f : Fn} {x : K} : f ∈ Fn.vanishingAtZero → head f 0 = some x → x = 0
  one_at_zero {f : Fn} {x : K} : f ∈ Fn.unitAtZero → head f 0 = some x → x = 1
  zero_at_one {f : Fn} {x : K} : f = .acos ∨ f = .log → head f 1 = some x → x = 0
  zero_at_pi {f : Fn} {x : K} : f = .sin ∨ f = .tan → head f pi = some x → x = 0
  cos_pi {x : K} : head .cos pi = some x → x = -1
  abs_rational {q : ℚ} {x : K} : head .abs q = some x → x = |q|
  abs_neg {a x : K} : head .abs (-a) = some x → head .abs a = some x
  abs_pi {x : K} : head .abs pi = some x → x = pi
  abs_positive {f : Fn} {a x y : K} : f = .exp ∨ f = .abs →
    head f a = some x → head .abs x = some y → y = x
  sin_sq_add_cos_sq {a x y : K} : head .sin a = some x → head .cos a = some y → x ^ 2 + y ^ 2 = 1
  cos_sub {a b s t c d : K} : head .sin a = some s → head .sin b = some t →
    head .cos a = some c → head .cos b = some d → head .cos (a - b) = some (s * t + c * d)

/-- An interpretation with values for the symbols. -/
structure Valuation (K : Type*) [Field K] extends Interpretation K where
  symbol : String → K

theorem both_eq_some {α β γ : Type*} {o : Option α} {p : Option β} {f : α → β → Option γ} {z : γ} :
    (o.bind fun x => p.bind fun y => f x y) = some z ↔
      ∃ x y, o = some x ∧ p = some y ∧ f x y = some z := by
  simp [Option.bind_eq_some_iff]

namespace Interpretation

variable {K : Type*} [Field K] (I : Interpretation K)

theorem power_nat (b : K) (n : ℕ) : I.power b n = some (b ^ n) := by
  simpa using I.power_int b n (.inl (Int.natCast_nonneg n))

theorem power_zero (b : K) : I.power b 0 = some 1 := by
  simpa using I.power_nat b 0

theorem power_one (b : K) : I.power b 1 = some b := by
  simpa using I.power_nat b 1

theorem power_inv {b : K} (b_ne : b ≠ 0) : I.power b (-1) = some b⁻¹ := by
  simpa using I.power_int b (-1) (.inr b_ne)

/-- A negative power of zero would be an inverse of zero. -/
theorem nonneg_or_ne_of_power {b x : K} {k : ℤ} (has : I.power b k = some x) : 0 ≤ k ∨ b ≠ 0 := by
  by_contra neither
  obtain ⟨negative, rfl⟩ : k < 0 ∧ b = 0 := by
    simpa only [not_or, not_le, not_not, ne_eq] using neither
  have opposite := I.power_int (0 : K) (-k) (.inl (by omega))
  rw [zero_zpow _ (by omega)] at opposite
  have together := I.power_add has opposite
  rw [Int.cast_neg, add_neg_cancel, I.power_zero, mul_zero] at together
  exact one_ne_zero (Option.some.inj together)

theorem eq_zpow_of_power {b x : K} {k : ℤ} (has : I.power b k = some x) : x = b ^ k := by
  rw [I.power_int b k (I.nonneg_or_ne_of_power has)] at has
  exact (Option.some.inj has).symm

/-- A natural power of a rational power is an integer power. -/
theorem power_num [CharZero K] {b x : K} {q : ℚ} (has : I.power b q = some x) :
    I.power b (q.num : ℤ) = some (x ^ q.den) := by
  have raised := I.power_power q.den has (by simpa using I.power_nat x q.den)
  have cleared : (q : K) * ((q.den : ℤ) : K) = ((q.num : ℤ) : K) := by
    have := Rat.mul_den_eq_num q
    exact_mod_cast congrArg (Rat.cast (K := K)) this
  rwa [cleared] at raised

theorem base_ne_zero_of_power_neg [CharZero K] {b x : K} {q : ℚ} (q_neg : q < 0)
    (has : I.power b q = some x) : b ≠ 0 := by
  have num_neg : q.num < 0 := Rat.num_neg.mpr q_neg
  exact (I.nonneg_or_ne_of_power (I.power_num has)).resolve_left (by omega)

/-- A negative rational power is never zero, as a natural power of it is an inverse. -/
theorem ne_zero_of_power_neg [CharZero K] {b x : K} {q : ℚ} (q_neg : q < 0)
    (has : I.power b q = some x) : x ≠ 0 := by
  have inverse := I.eq_zpow_of_power (I.power_num has)
  have b_ne := I.base_ne_zero_of_power_neg q_neg has
  intro x_zero
  rw [x_zero, zero_pow q.den_nz] at inverse
  exact zpow_ne_zero _ b_ne inverse.symm

/-- The opposite of a negative rational exponent gives the inverse. -/
theorem power_neg_of_neg [CharZero K] {b x : K} {q : ℚ} (q_neg : q < 0)
    (has : I.power b q = some x) : I.power b ((-q : ℚ) : K) = some x⁻¹ := by
  have inverse := I.power_inv (I.ne_zero_of_power_neg q_neg has)
  have turned := I.power_power (-1) has (by simpa using inverse)
  simpa using turned

end Interpretation

namespace Valuation

variable {K : Type*} [Field K] [DecidableEq K] (V : Valuation K)

/-- The value of an expression; there is none where a part has none, where the
divisor is zero, and for infinity and indeterminate forms. -/
def value : Expr → Option K
  | .var name => some (V.symbol name)
  | .const q => some q
  | .pi => some V.pi
  | .infinity | .undefined => none
  | .add a b => do return (← value a) + (← value b)
  | .sub a b => do return (← value a) - (← value b)
  | .mul a b => do return (← value a) * (← value b)
  | .div a b => do
      let x ← value a
      let y ← value b
      if y = 0 then none else return x / y
  | .pow a b => do V.power (← value a) (← value b)
  | .neg a => do return -(← value a)
  | .app f a => do V.head f (← value a)

def Means (e : Expr) (x : K) : Prop := V.value e = some x

instance (e : Expr) (x : K) : Decidable (V.Means e x) := inferInstanceAs (Decidable (V.value e = some x))

def Defined (e : Expr) : Prop := ∃ x, V.Means e x

/-- The value as a total function, zero where there is none. -/
def val (e : Expr) : K := (V.value e).getD 0

variable {V} {a b e : Expr} {x y z : K}

theorem Means.defined (h : V.Means e x) : V.Defined e := ⟨x, h⟩

theorem Means.val (h : V.Means e x) : V.val e = x := by
  rw [Valuation.val, h, Option.getD_some]

theorem Defined.means (h : V.Defined e) : V.Means e (V.val e) := by
  obtain ⟨x, has⟩ := h
  rwa [has.val]

theorem Means.unique (h : V.Means e x) (k : V.Means e y) : x = y :=
  h.val.symm.trans k.val

@[simp] theorem means_var (name : String) : V.Means (.var name) x ↔ V.symbol name = x :=
  Option.some_inj

@[simp] theorem means_const (q : ℚ) : V.Means (.const q) x ↔ (q : K) = x := Option.some_inj

@[simp] theorem means_pi : V.Means .pi x ↔ V.pi = x := Option.some_inj

@[simp] theorem not_means_infinity : ¬ V.Means .infinity x := nofun

@[simp] theorem not_means_undefined : ¬ V.Means .undefined x := nofun

theorem means_binary {f : K → K → K} :
    ((V.value a).bind fun x => (V.value b).bind fun y => some (f x y)) = some z ↔
      ∃ x y, V.Means a x ∧ V.Means b y ∧ f x y = z := by
  simp only [Means, both_eq_some, Option.some_inj]

theorem means_add : V.Means (.add a b) z ↔ ∃ x y, V.Means a x ∧ V.Means b y ∧ x + y = z :=
  means_binary

theorem means_sub : V.Means (.sub a b) z ↔ ∃ x y, V.Means a x ∧ V.Means b y ∧ x - y = z :=
  means_binary

theorem means_mul : V.Means (.mul a b) z ↔ ∃ x y, V.Means a x ∧ V.Means b y ∧ x * y = z :=
  means_binary

theorem means_div :
    V.Means (.div a b) z ↔ ∃ x y, V.Means a x ∧ V.Means b y ∧ y ≠ 0 ∧ x / y = z := by
  refine both_eq_some.trans (exists₂_congr fun x y => and_congr_right' (and_congr_right' ?_))
  by_cases y_zero : y = 0
  · simp [y_zero]
  · simp [y_zero]

theorem means_pow :
    V.Means (.pow a b) z ↔ ∃ x y, V.Means a x ∧ V.Means b y ∧ V.power x y = some z :=
  both_eq_some

theorem means_neg : V.Means (.neg a) z ↔ ∃ x, V.Means a x ∧ -x = z := by
  refine Option.bind_eq_some_iff.trans (exists_congr fun x => and_congr_right' ?_)
  exact Option.some_inj

theorem means_app (f : Fn) : V.Means (.app f a) z ↔ ∃ x, V.Means a x ∧ V.head f x = some z :=
  Option.bind_eq_some_iff

@[simp] theorem means_zero : V.Means .zero x ↔ 0 = x := by
  simp [Expr.zero]

@[simp] theorem means_one : V.Means .one x ↔ 1 = x := by
  simp [Expr.one]

theorem Means.add (h : V.Means a x) (k : V.Means b y) : V.Means (.add a b) (x + y) :=
  means_add.mpr ⟨x, y, h, k, rfl⟩

theorem Means.sub (h : V.Means a x) (k : V.Means b y) : V.Means (.sub a b) (x - y) :=
  means_sub.mpr ⟨x, y, h, k, rfl⟩

theorem Means.mul (h : V.Means a x) (k : V.Means b y) : V.Means (.mul a b) (x * y) :=
  means_mul.mpr ⟨x, y, h, k, rfl⟩

theorem Means.neg (h : V.Means a x) : V.Means (.neg a) (-x) :=
  means_neg.mpr ⟨x, h, rfl⟩

theorem Means.pow (h : V.Means a x) (k : V.Means b y) (has : V.power x y = some z) :
    V.Means (.pow a b) z :=
  means_pow.mpr ⟨x, y, h, k, has⟩

/-- Exponents of one base are added, however the sum is written. -/
theorem Means.pow_add {c s t : Expr} (sum : ∀ ⦃x y⦄, V.Means s x → V.Means t y → V.Means c (x + y))
    (h : V.Means (.pow b s) x) (k : V.Means (.pow b t) y) : V.Means (.pow b c) (x * y) := by
  obtain ⟨u, v, base, left, hasLeft⟩ := means_pow.mp h
  obtain ⟨u', w, base', right, hasRight⟩ := means_pow.mp k
  rw [← base.unique base'] at hasRight
  exact base.pow (sum left right) (V.power_add hasLeft hasRight)

theorem Means.app {f : Fn} (h : V.Means a x) (has : V.head f x = some z) :
    V.Means (.app f a) z :=
  (means_app f).mpr ⟨x, h, has⟩

end Valuation
end SymbolicAlgebra
