import SymbolicAlgebra.Proofs.Grammar.Joining
import SymbolicAlgebra.Proofs.Valuation

/-! Values of expressions where only sums, products, quotients and numbers have a fixed
meaning, that of a field. Powers, heads, `pi` and infinity stand for anything; nothing is
asked of them but that they have the same value wherever they occur. -/

namespace SymbolicAlgebra
open Grammar

structure Semantics (K : Type*) where
  symbol : String → K
  pi : Option K
  infinity : Option K
  power : K → K → Option K
  head : Fn → K → Option K

namespace Semantics

variable {K : Type*} [Field K] [DecidableEq K] (S : Semantics K)

/-- The value of an expression; a part without a value leaves none for the whole. -/
def value : Expr → Option K
  | .var name => some (S.symbol name)
  | .const q => some q
  | .pi => S.pi
  | .infinity => S.infinity
  | .undefined => none
  | .add a b => do return (← value a) + (← value b)
  | .sub a b => do return (← value a) - (← value b)
  | .mul a b => do return (← value a) * (← value b)
  | .div a b => do
      let x ← value a
      let y ← value b
      if y = 0 then none else return x / y
  | .pow a b => do S.power (← value a) (← value b)
  | .neg a => do return -(← value a)
  | .app f a => do S.head f (← value a)

variable {S} {a b e r : Expr} {x y z : K}

theorem value_binary {f : K → K → K} :
    ((S.value a).bind fun x => (S.value b).bind fun y => some (f x y)) = some z ↔
      ∃ x y, S.value a = some x ∧ S.value b = some y ∧ f x y = z := by
  simp only [both_eq_some, Option.some_inj]

theorem value_add : S.value (.add a b) = some z ↔
    ∃ x y, S.value a = some x ∧ S.value b = some y ∧ x + y = z := value_binary

theorem value_sub : S.value (.sub a b) = some z ↔
    ∃ x y, S.value a = some x ∧ S.value b = some y ∧ x - y = z := value_binary

theorem value_mul : S.value (.mul a b) = some z ↔
    ∃ x y, S.value a = some x ∧ S.value b = some y ∧ x * y = z := value_binary

theorem value_div : S.value (.div a b) = some z ↔
    ∃ x y, S.value a = some x ∧ S.value b = some y ∧ y ≠ 0 ∧ x / y = z := by
  refine both_eq_some.trans (exists₂_congr fun x y => and_congr_right' (and_congr_right' ?_))
  by_cases y_zero : y = 0 <;> simp [y_zero]

theorem value_pow : S.value (.pow a b) = some z ↔
    ∃ x y, S.value a = some x ∧ S.value b = some y ∧ S.power x y = some z := both_eq_some

theorem value_neg : S.value (.neg a) = some z ↔ ∃ x, S.value a = some x ∧ -x = z := by
  refine Option.bind_eq_some_iff.trans (exists_congr fun x => and_congr_right' ?_)
  exact Option.some_inj

theorem value_app {f : Fn} : S.value (.app f a) = some z ↔
    ∃ x, S.value a = some x ∧ S.head f x = some z := Option.bind_eq_some_iff

theorem value_add_of (h : S.value a = some x) (k : S.value b = some y) :
    S.value (.add a b) = some (x + y) := value_add.mpr ⟨x, y, h, k, rfl⟩

theorem value_sub_of (h : S.value a = some x) (k : S.value b = some y) :
    S.value (.sub a b) = some (x - y) := value_sub.mpr ⟨x, y, h, k, rfl⟩

theorem value_mul_of (h : S.value a = some x) (k : S.value b = some y) :
    S.value (.mul a b) = some (x * y) := value_mul.mpr ⟨x, y, h, k, rfl⟩

theorem value_div_of (h : S.value a = some x) (k : S.value b = some y) (y_ne : y ≠ 0) :
    S.value (.div a b) = some (x / y) := value_div.mpr ⟨x, y, h, k, y_ne, rfl⟩

theorem value_neg_of (h : S.value a = some x) : S.value (.neg a) = some (-x) :=
  value_neg.mpr ⟨x, h, rfl⟩

/-- Regrouped factors have the value of the product, and regrouped terms that of the sum. -/
theorem value_regrouped (h : Regrouped e r) (has : S.value e = some x) : S.value r = some x := by
  induction h generalizing x with
  | rfl => exact has
  | add_add _ ih =>
      obtain ⟨p, q, left, right, rfl⟩ := value_add.mp has
      obtain ⟨y, z, first, last, rfl⟩ := value_add.mp right
      rw [← add_assoc]
      exact value_add_of (ih (value_add_of left first)) last
  | add_sub _ ih =>
      obtain ⟨p, q, left, right, rfl⟩ := value_add.mp has
      obtain ⟨y, z, first, last, rfl⟩ := value_sub.mp right
      rw [← add_sub_assoc]
      exact value_sub_of (ih (value_add_of left first)) last
  | mul_mul _ ih =>
      obtain ⟨p, q, left, right, rfl⟩ := value_mul.mp has
      obtain ⟨y, z, first, last, rfl⟩ := value_mul.mp right
      rw [← mul_assoc]
      exact value_mul_of (ih (value_mul_of left first)) last
  | mul_div _ ih =>
      obtain ⟨p, q, left, right, rfl⟩ := value_mul.mp has
      obtain ⟨y, z, first, last, z_ne, rfl⟩ := value_div.mp right
      rw [← mul_div_assoc]
      exact value_div_of (ih (value_mul_of left first)) last z_ne
  | neg_mul _ ih =>
      obtain ⟨p, product, rfl⟩ := value_neg.mp has
      obtain ⟨y, z, left, right, rfl⟩ := value_mul.mp product
      rw [← neg_mul]
      exact value_mul_of (ih (value_neg_of left)) right
  | neg_div _ ih =>
      obtain ⟨p, quotient, rfl⟩ := value_neg.mp has
      obtain ⟨y, z, left, right, z_ne, rfl⟩ := value_div.mp quotient
      rw [← neg_div]
      exact value_div_of (ih (value_neg_of left)) right z_ne

end Semantics

/-- A valuation knows more about powers and heads, and gives the same values. -/
def Valuation.semantics {K : Type*} [Field K] (V : Valuation K) : Semantics K :=
  ⟨V.symbol, some V.pi, none, V.power, V.head⟩

theorem Valuation.value_semantics {K : Type*} [Field K] [DecidableEq K] (V : Valuation K) (e : Expr) :
    V.semantics.value e = V.value e := by
  induction e <;> simp_all [Semantics.value, Valuation.value, Valuation.semantics]

end SymbolicAlgebra
