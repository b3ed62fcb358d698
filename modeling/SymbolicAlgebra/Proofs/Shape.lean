import SymbolicAlgebra.Proofs.Expr.Parts
import SymbolicAlgebra.Proofs.Hereditary.Evaluation

/-! The shape of evaluated expressions. An operation builds no node that an identity would
still change, so none is left after a pass, whatever the pass is given: the differences and
quotients of the input are rewritten, and the difference that an angle formula writes is
evaluated again before the pass ends. -/

namespace SymbolicAlgebra.Expr

variable {a b e : Expr}

/-- No rule changes such a power: its base raised to its exponent gives it again. -/
theorem IsIrreduciblePower.raise_eq (h : IsIrreduciblePower a b) : a.raise b = pow a b := by
  have undecided : ¬(a = undefined ∨ b = undefined) := not_or.mpr ⟨h.base_defined, h.exponent_defined⟩
  have notZero : ¬b.isZero = true := (isZero_iff b).not.mpr h.exponent_ne_zero
  have notOne : ¬b.isOne = true := (isOne_iff b).not.mpr h.exponent_ne_one
  have base_notOne : ¬a.isOne = true := (isOne_iff a).not.mpr h.base_ne_one
  have stays := h.stays
  unfold raise raiseWith
  rw [if_neg undecided, if_neg notZero, if_neg notOne, if_neg base_notOne]
  cases a with
  | const q =>
      have unfolded : b.value?.bind (Number.power? q) = none := by
        rwa [absorbs_const, Option.isSome_eq_false_iff, Option.isNone_iff_eq_none] at stays
      simp only [unfolded]
  | infinity =>
      have symbolic : b.value? = none := by simpa [absorbs] using stays
      simp only [symbolic]
  | app f a => cases f <;> first | rfl | cases stays
  | pow | mul | neg =>
      rw [absorbs] at stays
      simp [stays]
  | _ => rfl

/-- A node that no identity of its form changes. Differences are written as sums, and the
only quotients left are divisions by zero. -/
def IsStable : Expr → Prop
  | sub _ _ => False
  | div _ b => b = zero
  | neg a => a.takesSign = true
  | pow b p => IsIrreduciblePower b p
  | _ => True

def Shaped (e : Expr) : Prop := ∀ x ∈ e.parts, x.IsStable

theorem restored_shaped : Restored Shaped where
  const q := by simp [Shaped, parts, IsStable]
  undefined _ := by simp [Shaped, parts, IsStable]
  add := by simp [Shaped, parts, IsStable, or_imp, forall_and]
  mul := by simp [Shaped, parts, IsStable, or_imp, forall_and]
  app := by simp [Shaped, parts, IsStable]
  sub_parts h := (h _ (mem_parts_self _)).elim
  neg_part h := fun x inside => h x (List.mem_cons_of_mem _ inside)
  signed takes h := List.forall_mem_cons.mpr ⟨takes, h⟩
  pow_parts h := ⟨fun x inside => h x (parts_left rfl x inside), fun x inside => h x (parts_right rfl x inside)⟩
  irreducible stays h k := forall_operands stays h k

/-- A division by the constant zero is the one quotient that is kept. -/
theorem shaped_dividedBy (h : Shaped a) (k : Shaped b) : Shaped (a.dividedBy b) := by
  apply restored_shaped.dividedBy h k
  intro vanishes
  exact forall_operands vanishes h k

theorem shaped_evaluate (e : Expr) : Shaped e.evaluate := by
  have R := restored_shaped
  induction e with
  | add a b iha ihb => exact R.plus iha ihb
  | sub a b iha ihb => exact R.minus iha ihb
  | mul a b iha ihb => exact R.times iha ihb
  | div a b iha ihb => exact shaped_dividedBy iha ihb
  | pow a b iha ihb => exact R.raise iha ihb
  | neg a ih => exact R.negate ih
  | app f a ih => exact R.apply ih
  | _ => exact List.forall_mem_singleton.mpr trivial

/-- A pass ends with an evaluation, also where it joins two terms. -/
theorem shaped_pass (e : Expr) : Shaped e.pass := by
  rw [pass]
  split
  next => exact shaped_evaluate e
  next joined rest _ => exact shaped_evaluate (sum (joined :: rest))

theorem Shaped.passes (h : Shaped e) (n : Nat) : Shaped (passes n e) := by
  induction n generalizing e with
  | zero => exact h
  | succ n ih => exact ih (shaped_pass e)

/-- One pass is enough to bring an expression into shape, and no further pass spoils it. -/
theorem evaluated_parts_are_stable (e : Expr) (n : Nat) :
    (∀ x ∈ e.evaluate.parts, x.IsStable) ∧ ∀ x ∈ (e.simplifyWithin (n + 1)).parts, x.IsStable := by
  refine ⟨shaped_evaluate e, ?_⟩
  rw [simplifyWithin_eq_passes]
  exact (shaped_pass e).passes n

end SymbolicAlgebra.Expr
