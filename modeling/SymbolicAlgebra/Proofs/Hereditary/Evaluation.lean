import SymbolicAlgebra.FixedPoint
import SymbolicAlgebra.Proofs.Hereditary.Product
import SymbolicAlgebra.Proofs.Identity.Trigonometric

/-! Evaluation, its passes and the identities that they use keep hereditary
properties. -/

namespace SymbolicAlgebra
open SymbolicAlgebra.Expr

variable {P : Expr → Prop} {a b e : Expr} {l : List Expr} {f : Fn}

namespace HeadClosed

theorem absolute (H : HeadClosed P) (h : P a) : P a.absolute := by
  induction a with
  | const q => exact H.const _
  | neg a ih => exact ih (H.neg_part h)
  | app g a => cases g <;> first | exact h | exact H.app.mpr h
  | pi => exact h
  | infinity => exact h
  | undefined => exact h
  | _ => exact H.app.mpr h

theorem applySigned (H : HeadClosed P) (h : P a) : P (applySigned f a) := by
  cases a with
  | neg a =>
      simp only [Expr.applySigned]
      split
      next => exact H.negate (H.app.mpr (H.neg_part h))
      next => exact H.app.mpr (H.neg_part h)
      next => exact H.app.mpr h
  | _ => exact H.app.mpr h

theorem cancelInverse? {u : Expr} (H : HeadClosed P) (h : P a)
    (found : Expr.cancelInverse? f a = some u) : P u := by
  unfold Expr.cancelInverse? at found
  split at found
  all_goals first
    | cases found; done
    | obtain rfl := Option.some.inj found
      exact H.app.mp h

theorem apply (H : HeadClosed P) (h : P a) : P (apply f a) := by
  rw [Expr.apply]
  split
  next => exact H.absolute h
  split
  next isUndefined => exact isUndefined ▸ h
  split
  next => exact H.const _
  next found => exact H.cancelInverse? h found
  next => exact H.applySigned h

end HeadClosed

namespace Inherited

theorem joinSquares (H : Inherited P) {j : Expr} (h : P a)
    (joined : SquaredTerm.join? (SquaredTerm.ofTerm? a) (SquaredTerm.ofTerm? b) = some j) :
    P j := by
  obtain ⟨s, t, left, -, -, -, -, -, rfl⟩ := SquaredTerm.join?_eq_some joined
  obtain ⟨perm, -, -⟩ := SquaredTerm.ofTerm?_eq_some left
  have factors := H.factors (H.asMultiple h)
  apply H.scaled
  apply H.product
  intro f member
  exact factors f (perm.mem_iff.mpr (List.mem_cons_of_mem _ member))

theorem angleFactors (H : Inherited P) (h : P e) : ∀ f ∈ (AngleTerm.ofTerm e).factors, P f := by
  intro f member
  exact H.factors (H.asMultiple h) f ((AngleTerm.ofTerm_perm e).mem_iff.mpr member)

end Inherited

/-- A property that evaluation keeps, and the difference that an angle formula writes. -/
structure PassClosed (P : Expr → Prop) : Prop extends HeadClosed P where
  sub : Keeps P Expr.sub
  evaluate {e : Expr} : P e → P e.evaluate

namespace PassClosed

theorem difference? (H : PassClosed P) {j : Expr} (h : P a)
    (joined : AngleTerm.difference? (AngleTerm.ofTerm a) (AngleTerm.ofTerm b) = some j) : P j := by
  obtain ⟨u, v, sines, -, -, rfl⟩ := AngleTerm.difference?_eq_some joined
  have factors := H.angleFactors h
  rw [sines] at factors
  obtain ⟨angles, others⟩ := List.forall_mem_append.mp factors
  have cosine : P (.app .cos (.sub u v)) := by
    have first : P (.app .sin u) := angles _ (.head _)
    have second : P (.app .sin v) := angles _ (.tail _ (.head _))
    exact H.app.mpr (H.sub (H.app.mp first) (H.app.mp second))
  apply H.scaled
  split
  next => exact cosine
  next => exact H.mul.mpr ⟨H.product others, cosine⟩

theorem joinTerms (H : PassClosed P) (h : ∀ t ∈ l, P t) {j : Expr} {others : List Expr}
    (joined : joinTerms? l = some (j, others)) : ∀ t ∈ j :: others, P t := by
  obtain ⟨a, b, perm, pair⟩ := joinTerms?_eq_some joined
  have members : ∀ t ∈ a :: b :: others, P t := fun t member => h t (perm.mem_iff.mpr member)
  obtain ⟨first, tail⟩ := List.forall_mem_cons.mp members
  obtain ⟨second, rest⟩ := List.forall_mem_cons.mp tail
  refine List.forall_mem_cons.mpr ⟨?_, rest⟩
  rcases pair with squares | angles
  · exact H.joinSquares first squares
  · rcases Option.or_eq_some_iff.mp angles with found | ⟨-, found⟩
    · exact H.difference? first found
    · exact H.difference? second found

/-- A pass keeps what its evaluation has established. -/
theorem pass (H : PassClosed P) (h : P e.evaluate) : P e.pass := by
  rw [Expr.pass]
  split
  next => exact h
  next joined rest found => exact H.evaluate (H.sum (H.joinTerms (H.terms h) found))

theorem passes (H : PassClosed P) (n : Nat) (h : P e) : P (passes n e) := by
  induction n generalizing e with
  | zero => exact h
  | succ n ih => exact ih (H.pass (H.evaluate h))

theorem simplifyWithin (H : PassClosed P) (n : Nat) (h : P e) : P (e.simplifyWithin n) := by
  rw [simplifyWithin_eq_passes]
  exact H.passes n h

theorem simplify (H : PassClosed P) (h : P e) : P e.simplify := H.simplifyWithin _ h

/-- It is enough that the first pass establishes the property. -/
theorem simplify_of_evaluate (H : PassClosed P) (h : P e.evaluate) : P e.simplify := by
  have first := H.passes (defaultPasses - 1) (H.pass h)
  unfold Expr.simplify
  rwa [simplifyWithin_eq_passes]

end PassClosed

theorem Hereditary.evaluate (H : Hereditary P) (h : P e) : P e.evaluate := by
  induction e with
  | add a b iha ihb =>
      obtain ⟨left, right⟩ := H.add.mp h
      exact H.plus (iha left) (ihb right)
  | sub a b iha ihb =>
      obtain ⟨left, right⟩ := H.sub.mp h
      exact H.minus (iha left) (ihb right)
  | mul a b iha ihb =>
      obtain ⟨left, right⟩ := H.mul.mp h
      exact H.times (iha left) (ihb right)
  | div a b iha ihb =>
      obtain ⟨left, right⟩ := H.div_parts h
      apply H.dividedBy (iha left) (ihb right)
      intro vanishes
      rw [vanishes]
      exact H.div_zero h (iha left)
  | pow a b iha ihb =>
      obtain ⟨base, exponent⟩ := H.pow.mp h
      exact H.raise (iha base) (ihb exponent)
  | neg a ih => exact H.negate (ih (H.neg.mp h))
  | app f a ih => exact H.apply (ih (H.app.mp h))
  | _ => exact h

theorem Hereditary.passClosed (H : Hereditary P) : PassClosed P where
  toHeadClosed := H.toHeadClosed
  sub _ _ left right := H.sub.mpr ⟨left, right⟩
  evaluate := H.evaluate

end SymbolicAlgebra
