import SymbolicAlgebra.DefiniteIntegral
import SymbolicAlgebra.Proofs.Expr.Parts
import SymbolicAlgebra.Proofs.Fault
import SymbolicAlgebra.Proofs.Hereditary.CanonicalForm

/-! What the check establishes. It looks at the text as it is parsed, and what is printed
comes out of evaluation and the canonical form, so that a divisor is known not to vanish
only as it was written. -/

namespace SymbolicAlgebra.Expr

variable {a b e p : Expr}

theorem pass_eq_zero (h : e.evaluate = zero) : e.pass = zero := by
  rw [pass]
  rw [h]
  split
  next => rfl
  next joined rest found =>
    obtain ⟨a, b, perm, -⟩ := joinTerms?_eq_some found
    have length := perm.length_eq
    simp [terms, termsWithSign, zero] at length

theorem simplify_eq_zero (h : e.evaluate = zero) : e.simplify = zero := by
  rw [simplify, simplifyWithin_eq_passes, defaultPasses, passes, pass_eq_zero h]
  exact passes_fixed (pass_eq_zero rfl) 63

/-- The check goes through all parts. -/
theorem requireDefined_of_mem_parts (h : e.requireDefined = .ok ()) (member : p ∈ e.parts) :
    p.requireDefined = .ok () := by
  induction e generalizing p with
  | add a b iha ihb | sub a b iha ihb | mul a b iha ihb =>
      obtain ⟨_, left, right⟩ := exists_of_bind h
      exact forall_operands h (fun _ => iha left) (fun _ => ihb right) _ member
  | div a b iha ihb | pow a b iha ihb =>
      obtain ⟨_, left, tail⟩ := exists_of_bind h
      obtain ⟨_, right, -⟩ := exists_of_bind tail
      exact forall_operands h (fun _ => iha left) (fun _ => ihb right) _ member
  | neg a ih =>
      rcases List.mem_cons.mp member with rfl | inside
      · exact h
      · exact ih h inside
  | app f a ih =>
      obtain ⟨_, arg, -⟩ := exists_of_bind h
      rcases List.mem_cons.mp member with rfl | inside
      · exact h
      · exact ih arg inside
  | _ => exact List.mem_singleton.mp member ▸ h

/-- Evaluation keeps a division only where the divisor comes to zero. -/
theorem divisionFree_evaluate (nonzero : ∀ p ∈ e.parts, ∀ a b, p = div a b → b.evaluate ≠ zero) :
    DivisionFree e.evaluate := by
  have H := hereditary_divisionFree
  induction e with
  | add a b iha ihb =>
      obtain ⟨-, left, right⟩ := forall_parts_operation.mp nonzero
      exact H.plus (iha left) (ihb right)
  | sub a b iha ihb =>
      obtain ⟨-, left, right⟩ := forall_parts_operation.mp nonzero
      exact H.minus (iha left) (ihb right)
  | mul a b iha ihb =>
      obtain ⟨-, left, right⟩ := forall_parts_operation.mp nonzero
      exact H.times (iha left) (ihb right)
  | div a b iha ihb =>
      obtain ⟨divisor, left, right⟩ := forall_parts_operation.mp nonzero
      apply H.dividedBy (iha left) (ihb right)
      intro vanishes
      exact absurd vanishes (divisor a b rfl)
  | pow a b iha ihb =>
      obtain ⟨-, left, right⟩ := forall_parts_operation.mp nonzero
      exact H.raise (iha left) (ihb right)
  | neg a ih => exact H.negate (ih (List.forall_mem_cons.mp nonzero).2)
  | app f a ih => exact H.apply (ih (List.forall_mem_cons.mp nonzero).2)
  | _ =>
      intro a b member
      cases List.mem_singleton.mp member

/-- No divisor of a checked expression comes to zero. -/
theorem divisionFree_of_requireDefined (h : e.requireDefined = .ok ()) : DivisionFree e.evaluate := by
  apply divisionFree_evaluate
  rintro _ member a b rfl vanishes
  obtain ⟨_, -, tail⟩ := exists_of_bind (requireDefined_of_mem_parts h member)
  obtain ⟨_, -, divisor⟩ := exists_of_bind tail
  have refused : b.vanishes = true := (isZero_iff _).mpr (simplify_eq_zero vanishes)
  rw [if_pos refused] at divisor
  cases divisor

/-- What is printed for an accepted text comes out of the expression that was read,
which has passed the check. -/
theorem read_of_accepted {settings : Settings} {text : String}
    (accepted : ofBoundText text = .ok e ∨ ofIntegrandText settings text = .ok e) :
    ∃ read, ofStatementText text = .ok read ∧ read.requireDefined = .ok () ∧
      (e = read.evaluate ∨ e = read.canonicalize settings.passes) := by
  rcases accepted with bound | integrand
  · obtain ⟨read, isRead, checks⟩ := exists_of_bind bound
    obtain ⟨_, defined, determinate⟩ := exists_of_bind checks
    obtain ⟨_, -, result⟩ := exists_of_bind determinate
    exact ⟨read, isRead, defined, .inl (Except.ok.inj result).symm⟩
  · obtain ⟨read, isRead, checks⟩ := exists_of_bind integrand
    obtain ⟨_, defined, determinate⟩ := exists_of_bind checks
    obtain ⟨_, -, only⟩ := exists_of_bind determinate
    obtain ⟨_, -, result⟩ := exists_of_bind only
    exact ⟨read, isRead, defined, .inr (Except.ok.inj result).symm⟩

end SymbolicAlgebra.Expr
