import SymbolicAlgebra.Proofs.Arithmetic.Size
import SymbolicAlgebra.Proofs.Shape

/-! A sign in front of the argument of an odd or even head. It moves out of the head, or is
dropped, where evaluation leaves it as a node and no other identity applies to the head
without it. It stays inside where it is folded into a number or a coefficient. -/

namespace SymbolicAlgebra

/-- What becomes of a head when a sign is taken from its argument. -/
def Parity.turn : Parity → Expr → Expr
  | .odd, e => e.negate
  | _, e => e

namespace Expr
variable {f : Fn} {a u v x : Expr} {q : Rat}

/-- The head has no value at the argument and undoes no inverse. -/
structure Inert (f : Fn) (a : Expr) : Prop where
  value : valueAt? f a = none
  inverse : cancelInverse? f a = none

/-- A sign in front of the evaluated argument takes the effect that the parity of the head
asks for. A zero has no sign, but the head needs a value there. -/
def SignMovesOut (f : Fn) : Expr → Prop
  | undefined => True
  | const q => q = 0 ∧ valueAt? f zero ≠ none
  | mul (const _) _ => False
  | neg a => Inert f a
  | a => Inert f a

theorem ne_abs_of_parity (signed : f.parity ≠ .neither) : f ≠ .abs := by
  rintro rfl
  exact signed rfl

theorem inert_neg (f : Fn) (a : Expr) : Inert f (neg a) := by
  constructor <;> cases f <;> simp [valueAt?, cancelInverse?, isZero, isOne]

theorem inert_mul (f : Fn) (a b : Expr) : Inert f (mul a b) := by
  constructor <;> cases f <;> simp [valueAt?, cancelInverse?, isZero, isOne]

theorem inert_const (signed : f.parity ≠ .neither) (q_ne : q ≠ 0) : Inert f (const q) := by
  constructor <;> cases f <;> simp_all [valueAt?, cancelInverse?, isZero, Fn.parity]

theorem apply_of_inert (not_abs : f ≠ .abs) (defined : a ≠ undefined) (h : Inert f a) :
    apply f a = applySigned f a := by
  rw [apply, if_neg not_abs, if_neg defined, h.value, h.inverse]

theorem size_lt_of_cancelInverse? (h : cancelInverse? f a = some u) : u.size < a.size := by
  unfold cancelInverse? at h
  split at h
  all_goals first
    | cases h; done
    | obtain rfl := Option.some.inj h
      rw [size]
      omega

/-- Where an identity applies, the head is gone. -/
theorem size_apply_le_of_not_inert (not_abs : f ≠ .abs) (defined : a ≠ undefined) (h : ¬ Inert f a) :
    (apply f a).size ≤ a.size := by
  rw [apply, if_neg not_abs, if_neg defined]
  split
  next => exact a.size_pos
  next inverse => exact (size_lt_of_cancelInverse? inverse).le
  next value inverse => exact absurd ⟨value, inverse⟩ h

theorem size_applySigned_le (f : Fn) (a : Expr) : (applySigned f a).size ≤ a.size + 1 := by
  cases a with
  | neg a =>
      simp only [applySigned]
      split <;> simp only [negate, size] <;> omega
  | _ => simp only [applySigned, size]; omega

theorem size_apply_le (not_abs : f ≠ .abs) (a : Expr) : (apply f a).size ≤ a.size + 1 := by
  by_cases defined : a = undefined
  · rw [defined, apply, if_neg not_abs, if_pos rfl]
    exact Nat.le_succ _
  by_cases h : Inert f a
  · rw [apply_of_inert not_abs defined h]
    exact size_applySigned_le f a
  · exact (size_apply_le_of_not_inert not_abs defined h).trans (Nat.le_succ _)

theorem ne_undefined_of_takesSign (takes : a.takesSign = true) : a ≠ undefined := by
  rintro rfl
  cases takes

/-- Sizes tell whether the head has stayed. -/
theorem apply_eq_app_iff (not_abs : f ≠ .abs) (takes : a.takesSign = true) :
    apply f a = app f a ↔ Inert f a := by
  have defined := ne_undefined_of_takesSign takes
  constructor
  · intro same
    by_contra h
    have smaller := size_apply_le_of_not_inert not_abs defined h
    rw [same, size] at smaller
    omega
  · intro h
    rw [apply_of_inert not_abs defined h]
    cases a <;> first | rfl | cases takes

theorem apply_neg (signed : f.parity ≠ .neither) (a : Expr) :
    apply f (neg a) = f.parity.turn (app f a) := by
  have defined : neg a ≠ undefined := Expr.noConfusion
  rw [apply_of_inert (ne_abs_of_parity signed) defined (inert_neg f a), applySigned]
  cases sign : f.parity with
  | odd => rfl
  | even => rfl
  | neither => exact absurd sign signed

theorem turn_turn_app (f : Fn) (a : Expr) : f.parity.turn (f.parity.turn (app f a)) = app f a := by
  cases f.parity <;> rfl

theorem size_lt_turn_app (f : Fn) (a : Expr) : a.size < (f.parity.turn (app f a)).size := by
  cases f.parity <;> simp only [Parity.turn, negate, size] <;> omega

/-- What is smaller than the head does not become it by a sign. -/
theorem turn_app_ne (smaller : x.size ≤ a.size) : f.parity.turn (app f a) ≠ f.parity.turn x := by
  have bound := size_negate_le x
  intro same
  have sizes := congrArg size same
  generalize f.parity = parity at sizes
  cases parity <;> simp only [Parity.turn, negate, size] at sizes <;> omega

/-- The coefficient changes its sign in place, or the product gets smaller. -/
theorem negate_coefficient (q : Rat) (b : Expr) :
    q ≠ 0 ∧ (mul (const q) b).negate = mul (const (-q)) b ∨
      (mul (const q) b).negate.size < (mul (const q) b).size := by
  have bound := size_negate_le b
  simp only [negate, scaledWith]
  split
  next => right; simp only [zero, size]; omega
  next nonzero =>
    split
    next => right; simp only [size]; omega
    split
    next => right; simp only [size]; omega
    split
    next => right; simp only [size]; omega
    next => exact .inl ⟨neg_ne_zero.mp nonzero, rfl⟩

/-- A number keeps its sign, unless it has none. -/
theorem apply_negate_const_iff (signed : f.parity ≠ .neither) (q : Rat) :
    apply f (const q).negate = f.parity.turn (apply f (const q)) ↔ SignMovesOut f (const q) := by
  by_cases q_zero : q = 0
  · subst q_zero
    have zero_moves : SignMovesOut f (const 0) ↔ valueAt? f zero ≠ none := and_iff_right rfl
    rw [zero_moves]
    cases f <;> first | exact absurd rfl signed | decide +kernel
  · have opposite_ne : -q ≠ 0 := neg_ne_zero.mpr q_zero
    have defined (p : Rat) : const p ≠ undefined := Expr.noConfusion
    have moved : (-q = q) ↔ q = 0 := neg_eq_self
    rw [negate, apply_of_inert (ne_abs_of_parity signed) (defined _) (inert_const signed opposite_ne),
      apply_of_inert (ne_abs_of_parity signed) (defined _) (inert_const signed q_zero)]
    cases f.parity <;> simp [Parity.turn, applySigned, negate, SignMovesOut, moved, q_zero]

/-- A coefficient keeps its sign. -/
theorem apply_negate_coefficient_ne (signed : f.parity ≠ .neither) (q : Rat) (b : Expr) :
    apply f (mul (const q) b).negate ≠ f.parity.turn (apply f (mul (const q) b)) := by
  have not_abs := ne_abs_of_parity signed
  have product (p : Rat) : apply f (mul (const p) b) = app f (mul (const p) b) :=
    apply_of_inert not_abs Expr.noConfusion (inert_mul f (const p) b)
  rw [product q]
  obtain ⟨q_ne, opposite⟩ | smaller := negate_coefficient q b
  · rw [opposite, product (-q)]
    cases f.parity <;> simp [Parity.turn, negate, neg_eq_self, q_ne]
  · intro same
    have below := size_apply_le not_abs (mul (const q) b).negate
    have above := size_lt_turn_app f (mul (const q) b)
    rw [same] at below
    omega

/-- Where the sign is a node, it moves out unless another identity applies without it. -/
theorem apply_neg_iff (signed : f.parity ≠ .neither) (takes : a.takesSign = true) :
    apply f (neg a) = f.parity.turn (apply f a) ↔ Inert f a := by
  have not_abs := ne_abs_of_parity signed
  rw [apply_neg signed]
  constructor
  · intro same
    by_contra h
    exact turn_app_ne (size_apply_le_of_not_inert not_abs (ne_undefined_of_takesSign takes) h) same
  · intro h
    rw [(apply_eq_app_iff not_abs takes).mpr h]

theorem apply_negate_iff (signed : f.parity ≠ .neither) (stable : v.IsStable) :
    apply f v.negate = f.parity.turn (apply f v) ↔ SignMovesOut f v := by
  -- the forms that negation tells apart
  cases v with
  | undefined => exact iff_of_true (by cases f <;> rfl) trivial
  | const q => exact apply_negate_const_iff signed q
  | neg a =>
      -- here the head with the sign is the one that is turned
      rw [negate, apply_neg signed, turn_turn_app]
      exact apply_eq_app_iff (ne_abs_of_parity signed) stable
  | mul a b =>
      cases a with
      | const q => exact iff_of_false (apply_negate_coefficient_ne signed q b) id
      | _ => exact apply_neg_iff signed rfl
  | _ => exact apply_neg_iff signed rfl

/-- Evaluation respects the parity of a head exactly where the sign of the argument moves
out: also in front of another sign, but not where a number or a coefficient has taken it, nor
where the head without the sign has another identity. -/
theorem parity_is_respected_iff (u : Expr) :
    (∀ f ∈ [Fn.sin, .tan, .cot, .csc, .asin, .atan, .sinh, .tanh, .asinh, .atanh],
      (app f (neg u)).evaluate = (neg (app f u)).evaluate ↔ SignMovesOut f u.evaluate) ∧
    ∀ f ∈ [Fn.cos, .sec, .cosh],
      (app f (neg u)).evaluate = (app f u).evaluate ↔ SignMovesOut f u.evaluate := by
  have stable : u.evaluate.IsStable := shaped_evaluate u _ (mem_parts_self _)
  have moves {f : Fn} (signed : f.parity ≠ .neither) := apply_negate_iff signed stable
  constructor
  · intro f listed
    have odd : f.parity = .odd := by
      revert f
      decide
    have turned := moves (f := f) (by rw [odd]; decide)
    rwa [odd] at turned
  · intro f listed
    have even : f.parity = .even := by
      revert f
      decide
    have turned := moves (f := f) (by rw [even]; decide)
    rwa [even] at turned

/-- The second sign in front of a difference cancels the first; one head gets a sign for it
and the other does not. -/
theorem sign_of_turned_difference_moves_out :
    let u : Expr := .neg (.sub (.var "x") .one)
    (app .csc (neg u)).evaluate = (neg (app .csc u)).evaluate ∧
      (app .cosh (neg u)).evaluate = (app .cosh u).evaluate := by
  intro u
  have argument : u.evaluate = neg (add (var "x") (const (-1))) := by decide +kernel
  have inert (f : Fn) (h : f = .csc ∨ f = .cosh) : SignMovesOut f u.evaluate := by
    rw [argument]
    rcases h with rfl | rfl <;> exact ⟨by decide +kernel, rfl⟩
  obtain ⟨odd, even⟩ := parity_is_respected_iff u
  exact ⟨(odd .csc (by decide)).mpr (inert _ (.inl rfl)), (even .cosh (by decide)).mpr (inert _ (.inr rfl))⟩

/-- A number and a coefficient keep the sign inside, and the head that is left behind a sign
is not evaluated again. -/
theorem folded_sign_stays_inside :
    (app .sin (neg (const 2))).evaluate ≠ (neg (app .sin (const 2))).evaluate ∧
      (app .sin (neg (const 2))).evaluate = app .sin (const (-2)) ∧
      (app .cos (neg (mul (const 2) (var "x")))).evaluate ≠ (app .cos (mul (const 2) (var "x"))).evaluate ∧
      (app .cos (neg (mul (const 2) (var "x")))).evaluate = app .cos (mul (const (-2)) (var "x")) ∧
      (app .sin (neg pi)).evaluate = neg (app .sin pi) ∧ (neg (app .sin pi)).evaluate = zero := by
  decide +kernel

end Expr
end SymbolicAlgebra
