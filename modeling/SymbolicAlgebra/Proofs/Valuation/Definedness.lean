import SymbolicAlgebra.Definedness
import SymbolicAlgebra.Proofs.Expr.Parts
import SymbolicAlgebra.Proofs.Fault
import SymbolicAlgebra.Proofs.Valuation.Simplification

/-! What the check refuses has no value. A refusal names a part whose divisor, base or
argument simplifies to zero; simplification keeps values, so that zero is the value of
the divisor, base or argument, and the part has none. -/

namespace SymbolicAlgebra

namespace Valuation
open SymbolicAlgebra.Expr

variable {K : Type*} [Field K] [CharZero K] [DecidableEq K] {V : Valuation K}
variable {a b e : Expr} {f : Fn} {x : K} {fault : Fault}

theorem Means.eq_zero (h : V.Means a x) (vanishes : a.vanishes = true) : x = 0 := by
  have simplified := h.simplify
  rw [(isZero_iff _).mp vanishes, means_zero] at simplified
  exact simplified.symm

theorem not_defined_div (vanishes : b.vanishes = true) : ¬ V.Defined (.div a b) := by
  intro defined
  obtain ⟨x, y, -, divisor, y_ne, -⟩ := means_div.mp defined.means
  exact y_ne (divisor.eq_zero vanishes)

theorem not_defined_pow (vanishes : a.vanishes = true) (negative : b.simplify.isNegativeConst = true) :
    ¬ V.Defined (.pow a b) := by
  intro defined
  obtain ⟨x, y, base, exponent, has⟩ := means_pow.mp defined.means
  have simplified := exponent.simplify
  generalize b.simplify = k at simplified negative
  cases k with
  | const q =>
      rw [means_const] at simplified
      subst simplified
      exact V.base_ne_zero_of_power_neg (of_decide_eq_true negative) has (base.eq_zero vanishes)
  | _ => cases negative

theorem not_defined_app (pole : V.head f 0 = none) (vanishes : a.vanishes = true) :
    ¬ V.Defined (.app f a) := by
  intro defined
  obtain ⟨x, arg, has⟩ := (means_app f).mp defined.means
  rw [arg.eq_zero vanishes, pole] at has
  cases has

variable (V) in
/-- The fault names a part that has no value. -/
def Explains (fault : Fault) (e : Expr) : Prop := ∃ p ∈ e.parts, fault.Names p ∧ ¬ V.Defined p

omit [CharZero K] in
theorem Explains.inherited (h : V.Explains fault a) (inside : ∀ p ∈ a.parts, p ∈ e.parts.tail) :
    V.Explains fault e := by
  obtain ⟨p, member, named⟩ := h
  exact ⟨p, List.mem_of_mem_tail (inside p member), named⟩

section Refused
variable (poles : ∀ f, hasPole f = true → V.head f 0 = none)
include poles

theorem explains_of_refused (refused : e.requireDefined = .error fault) : V.Explains fault e := by
  induction e with
  | add a b iha ihb | sub a b iha ihb | mul a b iha ihb =>
      rcases error_of_bind refused with left | ⟨_, -, right⟩
      · exact (iha left).inherited fun p => List.mem_append_left _
      · exact (ihb right).inherited fun p => List.mem_append_right _
  | div a b iha ihb =>
      rcases error_of_bind refused with left | ⟨_, -, tail⟩
      · exact (iha left).inherited fun p => List.mem_append_left _
      rcases error_of_bind tail with right | ⟨_, -, divisor⟩
      · exact (ihb right).inherited fun p => List.mem_append_right _
      split at divisor
      next vanishes =>
        obtain rfl := Except.error.inj divisor
        exact ⟨_, List.mem_cons_self, .quotient _, not_defined_div vanishes⟩
      next => cases divisor
  | pow a b iha ihb =>
      rcases error_of_bind refused with left | ⟨_, -, tail⟩
      · exact (iha left).inherited fun p => List.mem_append_left _
      rcases error_of_bind tail with right | ⟨_, -, power⟩
      · exact (ihb right).inherited fun p => List.mem_append_right _
      split at power
      next vanishes =>
        obtain rfl := Except.error.inj power
        rw [Bool.and_eq_true] at vanishes
        exact ⟨_, List.mem_cons_self, .power _, not_defined_pow vanishes.1 vanishes.2⟩
      next => cases power
  | neg a ih => exact (ih refused).inherited fun p => id
  | app f a ih =>
      rcases error_of_bind refused with inner | ⟨_, -, head⟩
      · exact (ih inner).inherited fun p => id
      split at head
      next vanishes =>
        obtain rfl := Except.error.inj head
        rw [Bool.and_eq_true] at vanishes
        exact ⟨_, List.mem_cons_self, .head _, not_defined_app (poles f vanishes.1) vanishes.2⟩
      next => cases head
  | _ => cases refused

/-- An expression that the check refuses has no value, in any field of characteristic zero,
for any reading of powers and heads with these poles and for any values of its symbols. -/
theorem refused_expression_has_no_value (refused : e.requireDefined = .error fault) :
    V.value e = none := by
  obtain ⟨p, member, -, undefined⟩ := explains_of_refused poles refused
  rw [Option.eq_none_iff_forall_ne_some]
  intro x has
  exact undefined (Defined.part ⟨x, has⟩ member)

end Refused

/-- No real number is the logarithm of `x - x`, whatever is added to it. -/
theorem logarithm_of_nothing_has_no_value :
    let V := RealFunction.valuation fun _ => 2
    let x : Expr := .var "x"
    let pole : Expr := .app .log (.sub x x)
    (∀ f, hasPole f = true → V.head f 0 = none) ∧
      (Expr.add x pole).requireDefined = .error (.undefinedAtZero pole) ∧ V.value (.add x pole) = none := by
  intro V x pole
  have poles (f : Fn) (has : hasPole f = true) : V.head f 0 = none := by
    cases f <;> first | cases has; done | simp [V, RealFunction.valuation, RealFunction.interpretation,
      RealFunction.head, RealFunction.onDomain]
  have refused : (Expr.add x pole).requireDefined = .error (.undefinedAtZero pole) := by decide +kernel
  exact ⟨poles, refused, refused_expression_has_no_value poles refused⟩

end Valuation
end SymbolicAlgebra
