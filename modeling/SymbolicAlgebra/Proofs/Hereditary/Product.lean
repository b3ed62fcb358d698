import SymbolicAlgebra.Arithmetic.Product
import SymbolicAlgebra.Proofs.Arithmetic.Factor
import SymbolicAlgebra.Proofs.Hereditary

/-! Products, powers and quotients keep hereditary properties. As multiplication and
raising call each other, each is shown to keep them if the other does. -/

namespace SymbolicAlgebra
open SymbolicAlgebra.Expr

/-- An operation that keeps a property of its two operands. -/
def Keeps (P : Expr → Prop) (op : Expr → Expr → Expr) : Prop := ∀ ⦃a b⦄, P a → P b → P (op a b)

/-- What a property of factors says of their bases and exponents, if that still holds where
the exponents of a base are added. -/
structure Powered (P : Expr → Prop) (Q : Expr → Expr → Prop) : Prop where
  asPower {f : Expr} : f.isAtomic = true → P f → Q f.asPower.1 f.asPower.2
  plus {b e e' : Expr} : Q b e → Q b e' → Q b (e.plus e')

namespace Powered

variable {P : Expr → Prop} {Q : Expr → Expr → Prop} {b e : Expr} {l : List Expr}

theorem joinPower (powered : Powered P Q) {powers : List (Expr × Expr)} (new : Q b e)
    (h : ∀ entry ∈ powers, Q entry.1 entry.2) : ∀ entry ∈ joinPower b e powers, Q entry.1 entry.2 := by
  induction powers with
  | nil => exact List.forall_mem_singleton.mpr new
  | cons head rest ih =>
      obtain ⟨first, others⟩ := List.forall_mem_cons.mp h
      simp only [Expr.joinPower]
      split
      next same => exact List.forall_mem_cons.mpr ⟨powered.plus first (same ▸ new), others⟩
      next => exact List.forall_mem_cons.mpr ⟨first, ih others⟩

theorem joinedPowers (powered : Powered P Q) (atoms : ∀ f ∈ l, f.isAtomic = true) (h : ∀ f ∈ l, P f) :
    ∀ entry ∈ joinedPowers l, Q entry.1 entry.2 := by
  refine List.foldlRecOn (motive := fun powers : List (Expr × Expr) => ∀ entry ∈ powers,
    Q entry.1 entry.2) l _ (List.forall_mem_nil _) ?_
  intro powers joined item member
  exact powered.joinPower (powered.asPower (atoms item member) (h item member)) joined

end Powered

namespace SumClosed

variable {P : Expr → Prop} {Q : Expr → Expr → Prop} {a b e : Expr} {l : List Expr}
variable {raise : Expr → Expr → Expr}

/-- A product is indeterminate only where a factor is, or is infinite. -/
theorem undefined_of_isIndeterminateProduct (H : SumClosed P) (h : P a) (k : P b)
    (indeterminate : isIndeterminateProduct a b = true) : P Expr.undefined := by
  have infinite {e : Expr} (holds : P e) (some_infinite : e.hasInfiniteFactor = true) :
      P Expr.undefined := by
    obtain ⟨f, member, isInfinite⟩ := List.any_eq_true.mp some_infinite
    have factor := H.factors holds f member
    simp only [Bool.or_eq_true, decide_eq_true_eq] at isInfinite
    rcases isInfinite with rfl | rfl
    · exact H.undefined factor
    · exact H.undefined (H.neg_part factor)
  simp only [isIndeterminateProduct, Bool.or_eq_true, Bool.and_eq_true, decide_eq_true_eq]
    at indeterminate
  rcases indeterminate with ((rfl | rfl) | ⟨-, right⟩) | ⟨-, left⟩
  · exact h
  · exact k
  · exact infinite k right
  · exact infinite h left

/-- Without its coefficient, a product is made of factors that have the property. -/
theorem joinedPowers_mul (H : SumClosed P) (powered : Powered P Q) (h : P a) (k : P b) :
    ∀ entry ∈ joinedPowers (mul a b).asMultiple.2.factors, Q entry.1 entry.2 :=
  powered.joinedPowers (isAtomic_of_mem_asMultiple _) (H.factors (H.asMultiple (H.mul.mpr ⟨h, k⟩)))

theorem productOfPowers (H : SumClosed P) (raises : ∀ ⦃b e⦄, Q b e → P (raise b e))
    (h : ∀ entry ∈ joinedPowers l, Q entry.1 entry.2) : P (productOfPowers raise l).2 := by
  apply H.sortedProduct
  intro f member
  obtain ⟨power, kept, inside⟩ := List.mem_flatMap.mp member
  obtain ⟨entry, joined, rfl⟩ := List.mem_map.mp (List.mem_filter.mp kept).1
  exact H.factors (raises (h entry joined)) f inside

section Raising
variable (H : SumClosed P) (powered : Powered P Q) (raises : ∀ ⦃b e⦄, Q b e → P (raise b e))
include H powered raises

theorem timesPlain : Keeps P (timesPlain raise) := by
  intro a b h k
  rw [Expr.timesPlain]
  split
  next indeterminate => exact H.undefined_of_isIndeterminateProduct h k indeterminate
  split
  next => exact H.const _
  split
  next => exact H.const 0
  split
  next => exact k
  split
  next => exact h
  next =>
    have rest := H.productOfPowers raises (H.joinedPowers_mul powered h k)
    dsimp only
    split
    next infinite => exact H.signedInfinity _ (infinite.1 ▸ rest)
    next => exact H.scaled _ rest

theorem timesConst (q : Rat) (h : P e) : P (timesConst raise q e) := by
  induction e with
  | add a b iha ihb =>
      obtain ⟨left, right⟩ := H.add.mp h
      exact H.plus (iha left) (ihb right)
  | sub a b iha ihb =>
      obtain ⟨left, right⟩ := H.sub_parts h
      exact H.minus (iha left) (ihb right)
  | _ => exact H.timesPlain powered raises h (H.const q)

theorem timesWith : Keeps P (timesWith raise) := by
  intro a b h k
  rw [Expr.timesWith]
  split
  next => exact H.timesConst powered raises _ k
  next => exact H.timesConst powered raises _ h
  next => exact H.timesPlain powered raises h k

end Raising

/-- At the end of the levels, the factors are only listed. -/
theorem timesWithin_zero (H : SumClosed P) : Keeps P (timesWithin 0) := by
  intro a b h k
  rw [timesWithin]
  split
  next indeterminate => exact H.undefined_of_isIndeterminateProduct h k indeterminate
  next => exact H.sortedProduct (List.forall_mem_append.mpr ⟨H.factors h, H.factors k⟩)

end SumClosed

theorem HeadClosed.exponential {P : Expr → Prop} {a : Expr} (H : HeadClosed P) (h : P a) :
    P (exponential a) := by
  unfold Expr.exponential
  split
  next => exact H.const 1
  split
  next => exact H.app.mp h
  next => exact H.app.mpr h

namespace Restored

variable {P : Expr → Prop} {a b e p : Expr}

theorem asPower (H : Restored P) (h : P e) : P e.asPower.1 ∧ P e.asPower.2 := by
  unfold Expr.asPower
  split
  next => exact H.pow_parts h
  next => exact ⟨H.app.mpr (H.const 1), H.app.mp h⟩
  next => exact ⟨h, H.const 1⟩

theorem powered (H : Restored P) : Powered P fun b e => P b ∧ P e where
  asPower _ h := H.asPower h
  plus h k := ⟨h.1, H.plus h.2 k.2⟩

theorem raiseWith (H : Restored P) {times : Expr → Expr → Expr} (keeps : Keeps P times) :
    Keeps P (raiseWith times) := by
  intro b e h k
  have raised := raisesTo_raiseWith times b e
  generalize Expr.raiseWith times b e = r at raised
  induction raised with
  | indeterminate operand =>
      rcases operand with rfl | rfl
      · exact h
      · exact k
  | zero | unit | folded | vanishing => exact H.const _
  | one | infinite => exact h
  | exp => exact H.exponential (keeps (H.app.mp h) k)
  | pow _ _ ih =>
      obtain ⟨base, exponent⟩ := H.pow_parts h
      exact ih base (keeps exponent k)
  | mul _ _ _ iha ihb =>
      obtain ⟨left, right⟩ := H.mul.mp h
      exact keeps (iha left k) (ihb right k)
  | neg _ _ ih =>
      have raised := ih (H.neg_part h) k
      split
      next => exact H.negate raised
      next => exact raised
  | irreducible stays => exact H.irreducible stays h k

theorem timesWithin (H : Restored P) (depth : Nat) : Keeps P (timesWithin depth) := by
  induction depth with
  | zero => exact H.timesWithin_zero
  | succ depth ih => exact H.timesWith H.powered fun _ _ h => H.raiseWith ih h.1 h.2

theorem times (H : Restored P) (h : P a) (k : P b) : P (a.times b) := H.timesWithin _ h k

theorem raise (H : Restored P) (h : P b) (k : P e) : P (b.raise e) :=
  H.raiseWith (H.timesWithin _) h k

theorem dividedBy (H : Restored P) (h : P a) (k : P b) (kept : b = zero → P (div a b)) :
    P (a.dividedBy b) := by
  rw [Expr.dividedBy]
  split
  next vanishing => exact kept ((isZero_iff b).mp vanishing)
  split
  next => exact H.const _
  split
  next => exact H.const 0
  split
  next => exact h
  next => exact H.times h (H.raise k (H.const (-1)))

end Restored
end SymbolicAlgebra
