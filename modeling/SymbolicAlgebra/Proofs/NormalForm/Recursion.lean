import Mathlib.Logic.Relation
import SymbolicAlgebra.Proofs.Definedness

/-! The normal form of an expression is made of the normal forms of other expressions.
Where no part is a division these are smaller, so the recursion ends and its depth is
bounded by the size. A kept division by zero is its own factor and has no normal form;
the check that an expression denotes a value leaves none. -/

namespace SymbolicAlgebra.Expr

variable {a b c e r s : Expr} {limit depth : Nat}

/-- The expressions whose normal forms the normal form of an expression is made of. -/
def normalCalls (limit : Nat) (e : Expr) : List Expr :=
  if limit < e.size then []
  else match e with
    | add a b | sub a b | pow a b => [a, b]
    | mul a b => (mul a b).splitQuotient.2
    | div a b => (div a b).splitQuotient.2
    | neg a | app _ a => [a]
    | var _ | const _ | pi | infinity | undefined => []

/-- The recursion in full: a normal form from normal forms of all that is called. -/
inductive NormalizesTo (limit : Nat) : Expr → Expr → Prop where
  | level {e : Expr} (next : Expr → Expr)
      (called : ∀ c ∈ e.normalCalls limit, NormalizesTo limit c (next c)) :
      NormalizesTo limit e (normalLevel limit next e)

/-- An expression that the recursion comes to when it starts from another one. -/
def NormalReaches (limit : Nat) : Expr → Expr → Prop :=
  Relation.ReflTransGen fun caller callee => callee ∈ caller.normalCalls limit

theorem normalProduct_congr {f g : Expr → Expr} (agree : ∀ c ∈ e.splitQuotient.2, f c = g c) :
    normalProduct f e = normalProduct g e := by
  have folded (product : FactoredProduct) :
      e.splitQuotient.2.foldl (fun product c => product.mulExpr (f c)) product =
        e.splitQuotient.2.foldl (fun product c => product.mulExpr (g c)) product := by
    apply List.foldl_ext
    intro product c member
    rw [agree c member]
  simp only [normalProduct, folded]

/-- A level looks at nothing but what is called. -/
theorem normalLevel_congr {f g : Expr → Expr} (agree : ∀ c ∈ e.normalCalls limit, f c = g c) :
    normalLevel limit f e = normalLevel limit g e := by
  unfold normalCalls at agree
  unfold normalLevel
  split
  next => rfl
  next small =>
    rw [if_neg small] at agree
    cases e with
    | mul a b => exact normalProduct_congr agree
    | div a b => exact normalProduct_congr agree
    | _ => simp_all

theorem NormalizesTo.unique (h : NormalizesTo limit e r) (k : NormalizesTo limit e s) : r = s := by
  induction h generalizing s with
  | level next _ ih =>
      cases k with
      | level other called =>
          apply normalLevel_congr
          intro c member
          exact ih c member (called c member)

/-- The factors of a product are no larger than the product. Only a divisor, which
becomes a power, may be as large as the quotient. -/
theorem size_le_of_splitQuotient (free : DivisionFree e) (member : c ∈ e.splitQuotient.2) :
    c.size ≤ e.size := by
  have H := hereditary_divisionFree
  induction e with
  | const q => cases member
  | neg a ih =>
      have := ih (H.neg.mp free) member
      simp only [size]
      omega
  | mul a b iha ihb =>
      obtain ⟨left, right⟩ := H.mul.mp free
      simp only [size]
      rcases List.mem_append.mp member with inLeft | inRight
      · have := iha left inLeft
        omega
      · have := ihb right inRight
        omega
  | div a b => exact absurd List.mem_cons_self (free a b)
  | _ =>
      obtain rfl := List.mem_singleton.mp member
      exact Nat.le_refl _

theorem size_lt_of_normalCalls (free : DivisionFree e) (member : c ∈ e.normalCalls limit) :
    c.size < e.size := by
  unfold normalCalls at member
  split at member
  next => cases member
  next =>
    cases e with
    | mul a b =>
        obtain ⟨left, right⟩ := hereditary_divisionFree.mul.mp free
        simp only [size]
        rcases List.mem_append.mp member with inLeft | inRight
        · have := size_le_of_splitQuotient left inLeft
          omega
        · have := size_le_of_splitQuotient right inRight
          omega
    | div a b => exact absurd List.mem_cons_self (free a b)
    | add a b | sub a b | pow a b =>
        simp only [List.mem_cons, List.not_mem_nil, or_false] at member
        simp only [size]
        rcases member with rfl | rfl <;> omega
    | neg a | app f a =>
        obtain rfl := List.mem_singleton.mp member
        simp only [size]
        omega
    | _ => cases member

theorem divisionFree_of_normalCalls (free : DivisionFree e) (member : c ∈ e.normalCalls limit) :
    DivisionFree c := by
  have H := hereditary_divisionFree
  unfold normalCalls at member
  split at member
  next => cases member
  next =>
    cases e with
    | mul a b => exact H.splitQuotient free c member
    | div a b => exact absurd List.mem_cons_self (free a b)
    | add a b =>
        obtain ⟨left, right⟩ := H.add.mp free
        simp only [List.mem_cons, List.not_mem_nil, or_false] at member
        rcases member with rfl | rfl <;> assumption
    | sub a b =>
        obtain ⟨left, right⟩ := H.sub.mp free
        simp only [List.mem_cons, List.not_mem_nil, or_false] at member
        rcases member with rfl | rfl <;> assumption
    | pow a b =>
        obtain ⟨left, right⟩ := H.pow.mp free
        simp only [List.mem_cons, List.not_mem_nil, or_false] at member
        rcases member with rfl | rfl <;> assumption
    | neg a => exact List.mem_singleton.mp member ▸ H.neg.mp free
    | app f a => exact List.mem_singleton.mp member ▸ H.app.mp free
    | _ => cases member

theorem NormalReaches.divisionFree (h : NormalReaches limit e a) (free : DivisionFree e) :
    DivisionFree a := by
  induction h with
  | refl => exact free
  | tail _ called ih => exact divisionFree_of_normalCalls ih called

/-- Without divisions the recursion ends, within as many levels as there are nodes. -/
theorem normalizesTo_normalizeWithin (free : DivisionFree e) (deep : e.size ≤ depth) :
    NormalizesTo limit e (normalizeWithin limit depth e) := by
  induction depth generalizing e with
  | zero =>
      have := e.size_pos
      omega
  | succ depth ih =>
      apply NormalizesTo.level
      intro c member
      have := size_lt_of_normalCalls free member
      exact ih (divisionFree_of_normalCalls free member) (by omega)

theorem normalizesTo_iff (free : DivisionFree e.simplify) :
    NormalizesTo limit e.simplify r ↔ r = e.normalizeSized limit := by
  have ends : NormalizesTo limit e.simplify (e.normalizeSized limit) :=
    normalizesTo_normalizeWithin free (Nat.le_succ _)
  constructor
  · intro h
    exact h.unique ends
  · rintro rfl
    exact ends

/-- A kept division by zero calls itself, so no recursion from it ends. -/
theorem not_normalizesTo_div_zero (small : (div a zero).size ≤ limit) :
    ¬ NormalizesTo limit (div a zero) r := by
  intro h
  generalize same : div a zero = e at h
  induction h with
  | level next _ ih =>
      subst same
      have own : div a zero ∈ (div a zero).normalCalls limit := by
        rw [normalCalls, if_neg (Nat.not_lt.mpr small)]
        simp [splitQuotient, zero]
      exact ih _ own rfl

/-- What the check accepts simplifies to expressions without divisions. From such a one
the normal form only calls on smaller expressions, a level depends on nothing but what is
called, and so the recursion ends with `normalize` as its only result; and the canonical
form has no divisions either. -/
theorem checked_expression_normalizes (e : Expr) (checked : e.requireDefined = .ok ()) :
    DivisionFree e.evaluate ∧ DivisionFree e.simplify ∧
      (∀ a b, NormalReaches normalSizeLimit e.simplify a → b ∈ a.normalCalls normalSizeLimit →
        b.size < a.size) ∧
      (∀ (a : Expr) (f g : Expr → Expr), (∀ c ∈ a.normalCalls normalSizeLimit, f c = g c) →
        normalLevel normalSizeLimit f a = normalLevel normalSizeLimit g a) ∧
      (∀ r, NormalizesTo normalSizeLimit e.simplify r ↔ r = e.normalize) ∧
      ∀ n, DivisionFree (e.canonicalize n) := by
  have H := hereditary_divisionFree
  have free := divisionFree_of_requireDefined checked
  have simplified := H.passClosed.simplify_of_evaluate free
  refine ⟨free, simplified, ?_, ?_, ?_, fun n => H.canonicalize n simplified⟩
  · intro a b reached called
    exact size_lt_of_normalCalls (reached.divisionFree simplified) called
  · intro a f g agree
    exact normalLevel_congr agree
  · intro r
    exact normalizesTo_iff simplified

/-- A quotient with divisors inside an exponent and inside an argument, where `x^2 - 1`
over `x - 1` cancels to `x + 1`. -/
theorem nested_quotient_normalizes :
    let x := var "x"
    let m := const (-1)
    let inner := div (sub (pow x (const 2)) one) (sub x one)
    let e := div (app .sin inner) (pow (add x one) (div x (sub x one)))
    let power := pow (add x one) (neg (mul x (pow (add x m) m)))
    e.requireDefined = .ok () ∧ DivisionFree e.simplify ∧
      (∀ r, NormalizesTo normalSizeLimit e.simplify r ↔ r = mul power (app .sin (add x one))) ∧
      DivisionFree (e.canonicalize 1) := by
  intro x m inner e power
  have checked : e.requireDefined = .ok () := by decide +kernel
  have result : e.normalize = mul power (app .sin (add x one)) := by decide +kernel
  obtain ⟨-, simplified, -, -, ends, canonical⟩ := checked_expression_normalizes e checked
  exact ⟨checked, simplified, result ▸ ends, canonical 1⟩

end SymbolicAlgebra.Expr
