import Mathlib.Data.Rat.Cast.CharZero
import SymbolicAlgebra.Proofs.Number
import SymbolicAlgebra.Proofs.Semantics
import SymbolicAlgebra.Rendering.Plain

/-! Texts by the value of what they are read as. Two texts are put together to a text that
shows the value of the whole, whatever else the grammar takes them apart into. -/

namespace SymbolicAlgebra
open Grammar

section Place
variable {K : Type*} [Field K]

variable (K) in
/-- What a sign in front of a term or factor multiplies it with. -/
def sign (negative : Bool) : K := if negative then -1 else 1

@[simp] theorem sign_false : sign K false = 1 := rfl

@[simp] theorem sign_true : sign K true = -1 := rfl

/-- The value of an expression in an inverted place, or in one that is not. -/
def placed (divisor : Bool) (x : K) : K := if divisor then x⁻¹ else x

theorem sign_not (negative : Bool) : sign K (!negative) = -sign K negative := by
  cases negative <;> simp

theorem sign_bne (first second : Bool) : sign K (first != second) = sign K first * sign K second := by
  cases first <;> cases second <;> simp

theorem placed_neg (divisor : Bool) (x : K) : placed divisor (-x) = -placed divisor x := by
  cases divisor <;> simp [placed, inv_neg]

theorem placed_mul (divisor : Bool) (x y : K) : placed divisor (x * y) = placed divisor x * placed divisor y := by
  cases divisor <;> simp [placed, mul_comm]

theorem placed_div (divisor : Bool) (x y : K) :
    placed divisor (x / y) = placed divisor x * placed (!divisor) y := by
  cases divisor <;> simp [placed, div_eq_mul_inv, mul_comm]

theorem placed_inv (divisor : Bool) (x : K) : placed divisor x⁻¹ = placed (!divisor) x := by
  cases divisor <;> simp [placed]

end Place

variable {K : Type*} [Field K] [DecidableEq K] (S : Semantics K)

/-- The text is one of the rule, and what it stands for has the value. -/
def Shows (level : Level) (text : String) (x : K) : Prop :=
  ∃ r, Denotes level text r ∧ S.value r = some x

variable {S} {level weak : Level} {text other : String} {x y z : K}

theorem Shows.weaken (h : Shows S level text x) (le : weak.rank ≤ level.rank) : Shows S weak text x := by
  obtain ⟨r, denotes, value⟩ := h
  exact ⟨r, denotes.weaken le, value⟩

theorem Shows.parens (h : Shows S .sum text x) : Shows S .primary ("(" ++ text ++ ")") x := by
  obtain ⟨r, denotes, value⟩ := h
  exact ⟨r, denotes.parens, value⟩

theorem Shows.times (h : Shows S .product text x) (k : Shows S .product other y) :
    Shows S .product (text ++ "*" ++ other) (x * y) := by
  obtain ⟨a, left, hasLeft⟩ := h
  obtain ⟨b, right, hasRight⟩ := k
  obtain ⟨r, joined, regrouped⟩ := left.times right
  exact ⟨r, joined, Semantics.value_regrouped regrouped (Semantics.value_mul_of hasLeft hasRight)⟩

theorem Shows.neg (h : Shows S .signed text x) : Shows S .signed ("-" ++ text) (-x) := by
  obtain ⟨a, denotes, value⟩ := h
  exact ⟨_, denotes.neg, Semantics.value_neg_of value⟩

theorem Shows.negated (h : Shows S .product text x) : Shows S .product ("-" ++ text) (-x) := by
  obtain ⟨a, denotes, value⟩ := h
  obtain ⟨r, signed, regrouped⟩ := denotes.negated
  exact ⟨r, signed, Semantics.value_regrouped regrouped (Semantics.value_neg_of value)⟩

theorem Shows.div (h : Shows S .product text x) (k : Shows S .signed other y) (y_ne : y ≠ 0) :
    Shows S .product (text ++ "/" ++ other) (x / y) := by
  obtain ⟨a, left, hasLeft⟩ := h
  obtain ⟨b, right, hasRight⟩ := k
  exact ⟨_, left.div right, Semantics.value_div_of hasLeft hasRight y_ne⟩

theorem Shows.plus (h : Shows S .sum text x) (k : Shows S .sum other y) :
    Shows S .sum (text ++ " + " ++ other) (x + y) := by
  obtain ⟨a, left, hasLeft⟩ := h
  obtain ⟨b, right, hasRight⟩ := k
  obtain ⟨r, joined, regrouped⟩ := left.plus right
  exact ⟨r, joined, Semantics.value_regrouped regrouped (Semantics.value_add_of hasLeft hasRight)⟩

theorem Shows.sub (h : Shows S .sum text x) (k : Shows S .product other y) :
    Shows S .sum (text ++ " - " ++ other) (x - y) := by
  obtain ⟨a, left, hasLeft⟩ := h
  obtain ⟨b, right, hasRight⟩ := k
  exact ⟨_, left.sub right, Semantics.value_sub_of hasLeft hasRight⟩

theorem Shows.pow (h : Shows S .primary text x) (k : Shows S .signed other y) (has : S.power x y = some z) :
    Shows S .power (text ++ "**" ++ other) z := by
  obtain ⟨a, base, hasBase⟩ := h
  obtain ⟨b, exponent, hasExponent⟩ := k
  exact ⟨_, base.pow exponent, Semantics.value_pow.mpr ⟨x, y, hasBase, hasExponent, has⟩⟩

theorem Shows.call {f : Fn} (h : Shows S .sum text x) (has : S.head f x = some z) :
    Shows S .primary (f.name ++ "(" ++ text ++ ")") z := by
  obtain ⟨a, arg, hasArg⟩ := h
  have identifier : isIdentifier f.name = true := by cases f <;> rfl
  have spelling : f.name ∈ f.words := by cases f <;> simp [Fn.name, Fn.words]
  exact ⟨_, arg.call identifier spelling, Semantics.value_app.mpr ⟨x, hasArg, has⟩⟩

/-! Numbers: a negative one starts with a sign, and a fraction is a quotient. -/

theorem shows_nat (n : Nat) : Shows S .primary (toString n) (n : K) :=
  ⟨_, .numeral n, congrArg some (Rat.cast_natCast n)⟩

theorem shows_int (k : Int) : Shows S .signed (toString k) (k : K) := by
  cases k with
  | ofNat n =>
      rw [Int.ofNat_eq_natCast, Int.cast_natCast]
      exact (shows_nat n).weaken (by decide)
  | negSucc n =>
      rw [Int.cast_negSucc]
      exact Shows.neg ((shows_nat (n + 1)).weaken (by decide))

theorem shows_number [CharZero K] (q : Rat) : Shows S .product (Number.text q) (q : K) := by
  have numerator : Shows S .signed (toString q.num) (q.num : K) := shows_int q.num
  have quotient : (q : K) = q.num / q.den := Rat.cast_def q
  rw [Number.text]
  split
  next integer =>
    rw [integer, Nat.cast_one, div_one] at quotient
    rw [quotient]
    exact numerator.weaken (by decide)
  next =>
    have nonzero : (q.den : K) ≠ 0 := Nat.cast_ne_zero.mpr q.den_ne_zero
    rw [quotient]
    exact (numerator.weaken (by decide)).div ((shows_nat q.den).weaken (by decide)) nonzero

theorem shows_whole {q : Rat} (integer : q.isInt = true) (nonneg : 0 ≤ q) :
    Shows S .primary (Number.text q) (q : K) := by
  obtain ⟨k, rfl⟩ := exists_int_of_isInt integer
  obtain ⟨n, rfl⟩ := Int.eq_ofNat_of_zero_le (Int.cast_nonneg_iff.mp nonneg)
  rw [Int.cast_natCast, Rat.cast_natCast]
  exact shows_nat n

end SymbolicAlgebra
