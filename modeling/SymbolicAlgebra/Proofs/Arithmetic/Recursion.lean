import SymbolicAlgebra.Proofs.Hereditary.Product

/-! Multiplication raises the bases that it has joined, and raising a power, an exponential or
a product multiplies again. What is multiplied then has fewer powers and products inside one
another than what was raised, so the two end, and the count of levels that they are defined
over never cuts a product off. -/

namespace SymbolicAlgebra.Expr

variable {b e x y : Expr} {n m : Nat} {t t' r r' : Expr → Expr → Expr}

/-- How many products are formed one inside the other when the expression is multiplied or,
with the flag, when it is raised to a power. -/
@[simp] def productDepth (raised : Bool) : Expr → Nat
  | var _ | const _ | pi | infinity | undefined => 0
  | add a b | sub a b | div a b => max (a.productDepth false) (b.productDepth false)
  | mul a b => raised.toNat + max (a.productDepth raised) (b.productDepth raised)
  | pow b p => raised.toNat + b.productDepth true + p.productDepth false
  | neg a => a.productDepth raised
  | app _ a => 1 + a.productDepth false

theorem productDepth_le_raised (e : Expr) : e.productDepth false ≤ e.productDepth true := by
  induction e with
  | mul a b | pow a b | neg a => simp only [productDepth, Bool.toNat_false, Bool.toNat_true]; omega
  | _ => exact Nat.le_refl _

theorem productDepth_raised_le_size (e : Expr) : e.productDepth true ≤ e.size := by
  induction e with
  | add a b | sub a b | mul a b | div a b | pow a b =>
      have := a.productDepth_le_raised
      have := b.productDepth_le_raised
      simp only [productDepth, size, Bool.toNat_true]
      omega
  | neg a | app f a =>
      have := a.productDepth_le_raised
      simp only [productDepth, size]
      omega
  | _ => exact Nat.zero_le _

theorem productDepth_of_isInteger (h : e.isInteger = true) : e.productDepth false = 0 := by
  cases e <;> first | rfl | exact absurd h Bool.false_ne_true

/-- A sum and a product are as deep as the deepest of their operands. -/
theorem sumClosed_productDepth (n : Nat) : SumClosed fun e => e.productDepth false ≤ n where
  const q := Nat.zero_le n
  undefined _ := Nat.zero_le n
  add := max_le_iff
  sub_parts := max_le_iff.mp
  mul := by simp only [productDepth, Bool.toNat_false, Nat.zero_add, max_le_iff, implies_true]
  neg_part := id
  signed _ := id

/-- The powers that are formed for a product go no deeper than its factors. -/
theorem powered_productDepth (n : Nat) :
    Powered (fun e => e.productDepth false ≤ n)
      fun b e => b.productDepth true + e.productDepth false ≤ n where
  asPower {f} atomic h := by
    unfold asPower
    split
    next => simpa using h
    next => exact h
    next not_pow _ =>
      cases f with
      | const | mul | neg => cases atomic
      | pow => cases not_pow _ _ rfl
      | _ => exact h
  plus {b e e'} h k := by
    have sum := (sumClosed_productDepth (n - b.productDepth true)).plus (a := e) (b := e') (by omega) (by omega)
    omega

/-! The depth of what comes out. -/

/-- A product is no deeper than its operands. -/
def KeepsDepth (t : Expr → Expr → Expr) : Prop := ∀ n, Keeps (fun e => e.productDepth false ≤ n) t

theorem productDepth_exponential (e : Expr) : (exponential e).productDepth false ≤ 1 + e.productDepth false := by
  unfold exponential
  split
  next => exact Nat.zero_le _
  split
  next => simp only [productDepth]; omega
  next => exact Nat.le_refl _

theorem productDepth_pow (b e : Expr) :
    (pow b e).productDepth false = b.productDepth true + e.productDepth false := by
  rw [productDepth, Bool.toNat_false, Nat.zero_add]

theorem productDepth_raiseWith (keeps : KeepsDepth t) (b e : Expr) :
    (raiseWith t b e).productDepth false ≤ b.productDepth true + e.productDepth false := by
  have raised := raisesTo_raiseWith t b e
  generalize raiseWith t b e = r at raised
  induction raised with
  | indeterminate | zero | unit | folded | vanishing | infinite => exact Nat.zero_le _
  | one => exact Nat.le_add_right_of_le (productDepth_le_raised _)
  | @exp a e =>
      have product := keeps (a.productDepth false + e.productDepth false)
        (Nat.le_add_right _ _) (Nat.le_add_left _ _)
      have exponential := productDepth_exponential (t a e)
      simp only [productDepth]
      omega
  | @pow b p e r integer _ power =>
      have product := keeps (p.productDepth false) (Nat.le_refl _)
        ((productDepth_of_isInteger integer).trans_le (Nat.zero_le _))
      simp only [productDepth]
      omega
  | @mul a b e r s integer _ _ left right =>
      have product := keeps ((mul a b).productDepth true + e.productDepth false) (a := r) (b := s)
      simp only [productDepth] at product ⊢
      exact product (by omega) (by omega)
  | neg _ _ operand =>
      split
      next => exact (sumClosed_productDepth _).negate operand
      next => exact operand
  | irreducible => exact (productDepth_pow _ _).le

theorem keepsDepth_timesWithin (depth : Nat) : KeepsDepth (timesWithin depth) := by
  induction depth with
  | zero => exact fun n => (sumClosed_productDepth n).timesWithin_zero
  | succ depth ih =>
      intro n
      exact (sumClosed_productDepth n).timesWith (powered_productDepth n) fun b e h =>
        (productDepth_raiseWith ih b e).trans h

/-! A product looks at nothing but the powers that it forms, and a power at nothing but the
products. -/

theorem productOfPowers_congr {l : List Expr}
    (agree : ∀ entry ∈ joinedPowers l, r entry.1 entry.2 = r' entry.1 entry.2) :
    productOfPowers r l = productOfPowers r' l := by
  have raised : (joinedPowers l).map (fun entry => r entry.1 entry.2) =
      (joinedPowers l).map fun entry => r' entry.1 entry.2 := List.map_congr_left agree
  rw [productOfPowers, raised, productOfPowers]

section Agreeing
variable (agree : ∀ b e, b.productDepth true + e.productDepth false ≤ n → r b e = r' b e)
include agree

theorem timesPlain_congr (h : x.productDepth false ≤ n) (k : y.productDepth false ≤ n) :
    timesPlain r x y = timesPlain r' x y := by
  have powers := productOfPowers_congr fun entry member =>
    agree _ _ ((sumClosed_productDepth n).joinedPowers_mul (powered_productDepth n) h k entry member)
  simp only [timesPlain, powers]

theorem timesConst_congr (q : Rat) (h : e.productDepth false ≤ n) : timesConst r q e = timesConst r' q e := by
  induction e with
  | add a b iha ihb | sub a b iha ihb =>
      obtain ⟨left, right⟩ := max_le_iff.mp h
      rw [timesConst, timesConst, iha left, ihb right]
  | _ => exact timesPlain_congr agree h (Nat.zero_le n)

theorem timesWith_congr (h : x.productDepth false ≤ n) (k : y.productDepth false ≤ n) :
    timesWith r x y = timesWith r' x y := by
  rw [timesWith, timesWith]
  split
  next => exact timesConst_congr agree _ k
  next => exact timesConst_congr agree _ h
  next => exact timesPlain_congr agree h k

end Agreeing

theorem raiseWith_congr (keeps : KeepsDepth t)
    (agree : ∀ x y, x.productDepth false < n → y.productDepth false < n → t x y = t' x y)
    (h : b.productDepth true + e.productDepth false ≤ n) : raiseWith t b e = raiseWith t' b e := by
  induction b generalizing e with
  | app f a =>
      cases f with
      | exp =>
          simp only [productDepth] at h
          rw [raiseWith, raiseWith, agree a e (by omega) (by omega)]
      | _ => rfl
  | pow b p ih =>
      rw [raiseWith, raiseWith]
      by_cases integer : e.isInteger = true
      · have flat := productDepth_of_isInteger integer
        have product := keeps (p.productDepth false) (Nat.le_refl _) (flat.trans_le (Nat.zero_le _))
        simp only [productDepth, Bool.toNat_true] at h product
        rw [if_pos integer, if_pos integer, ih (by omega), agree p e (by omega) (by omega)]
      · rw [if_neg integer, if_neg integer]
  | mul a b iha ihb =>
      rw [raiseWith, raiseWith]
      by_cases integer : e.isInteger = true
      · have flat := productDepth_of_isInteger integer
        have left := productDepth_raiseWith keeps a e
        have right := productDepth_raiseWith keeps b e
        simp only [productDepth, Bool.toNat_true] at h
        rw [if_pos integer, if_pos integer, ← iha (by omega), ← ihb (by omega),
          agree _ _ (by omega) (by omega)]
      · rw [if_neg integer, if_neg integer]
  | neg a ih => rw [raiseWith, raiseWith, ih h]
  | _ => rfl

/-! The recursion. -/

/-- Levels beyond the depth of the operands change nothing. -/
theorem timesWithin_eq (h : x.productDepth false < n) (k : y.productDepth false < n) (le : n ≤ m) :
    timesWithin m x y = timesWithin n x y := by
  induction n generalizing m x y with
  | zero => exact absurd h (Nat.not_lt_zero _)
  | succ n ih =>
      cases m with
      | zero => cases le
      | succ m =>
          refine timesWith_congr (n := n) ?_ (Nat.le_of_lt_succ h) (Nat.le_of_lt_succ k)
          intro b e shallow
          refine raiseWith_congr (keepsDepth_timesWithin m) ?_ shallow
          exact fun u v h k => ih h k (Nat.le_of_succ_le_succ le)

theorem productDepth_le_nesting (b e : Expr) : b.productDepth true + e.productDepth false ≤ nesting b e := by
  have base := b.productDepth_raised_le_size
  have exponent := e.productDepth_le_raised.trans e.productDepth_raised_le_size
  exact (Nat.add_le_add base exponent).trans (Nat.le_mul_self _)

theorem times_eq_timesWithin (h : x.productDepth false < n) (k : y.productDepth false < n) :
    x.times y = timesWithin n x y := by
  have bound := productDepth_le_nesting x y
  have left := x.productDepth_le_raised
  obtain le | le := Nat.le_total n (nesting x y + 1)
  · exact timesWithin_eq h k le
  · exact (timesWithin_eq (by omega) (by omega) le).symm

theorem raise_eq (b e : Expr) : b.raise e = raiseWith times b e := by
  have bound := productDepth_le_nesting b e
  apply raiseWith_congr (keepsDepth_timesWithin _) _ (Nat.le_refl _)
  intro x y h k
  exact (times_eq_timesWithin (h.trans_le bound) (k.trans_le bound)).symm

theorem times_eq (x y : Expr) : x.times y = timesWith raise x y := by
  have bound := productDepth_le_nesting x y
  have left := x.productDepth_le_raised
  refine timesWith_congr (n := nesting x y) ?_ (by omega) (by omega)
  intro b e shallow
  rw [raise_eq]
  exact raiseWith_congr (keepsDepth_timesWithin _) (fun u v h k => (times_eq_timesWithin h k).symm) shallow

theorem keepsDepth_times : KeepsDepth times := fun n x y h k =>
  keepsDepth_timesWithin (nesting x y + 1) n h k

/-- The two operations are given by the calls that they make of one another: these hold of
them, and of no others. -/
theorem recursion_determines_times_and_raise :
    (∀ x y, t x y = timesWith r x y) ∧ (∀ b e, r b e = raiseWith t b e) ↔ t = times ∧ r = raise := by
  constructor
  · rintro ⟨product, power⟩
    have within (n : Nat) : ∀ x y, x.productDepth false < n → y.productDepth false < n → t x y = x.times y := by
      induction n with
      | zero => exact fun x y h => absurd h (Nat.not_lt_zero _)
      | succ n ih =>
          intro x y h k
          rw [product, times_eq]
          refine timesWith_congr ?_ (Nat.le_of_lt_succ h) (Nat.le_of_lt_succ k)
          intro b e shallow
          rw [power, raise_eq]
          exact (raiseWith_congr keepsDepth_times (fun u v h k => (ih u v h k).symm) shallow).symm
    have same : t = times := by
      funext x y
      exact within (max (x.productDepth false) (y.productDepth false) + 1) x y (by omega) (by omega)
    refine ⟨same, ?_⟩
    funext b e
    rw [power, same, raise_eq]
  · rintro ⟨rfl, rfl⟩
    exact ⟨times_eq, raise_eq⟩

end SymbolicAlgebra.Expr
