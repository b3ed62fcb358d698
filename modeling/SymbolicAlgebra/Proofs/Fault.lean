import SymbolicAlgebra.Fault

/-! Sequences of checks: one succeeds if every check does, and fails as the first check
that fails. A refusal by the check of an expression names one of its parts. -/

namespace SymbolicAlgebra

variable {ε α β : Type} {first : Except ε α} {next : α → Except ε β} {fault : ε}

theorem exists_of_bind {r : β} (h : (first >>= next) = .ok r) :
    ∃ a, first = .ok a ∧ next a = .ok r := by
  cases first with
  | error fault => cases h
  | ok a => exact ⟨a, rfl, h⟩

theorem error_of_bind (h : (first >>= next) = .error fault) :
    first = .error fault ∨ ∃ a, first = .ok a ∧ next a = .error fault := by
  cases first with
  | error other => exact .inl (congrArg Except.error (Except.error.inj h))
  | ok a => exact .inr ⟨a, rfl, h⟩

theorem ok_of_mapError {ε' : Type} {f : ε → ε'} {a : α} (h : first.mapError f = .ok a) : first = .ok a := by
  cases first with
  | error fault => cases h
  | ok b => exact congrArg Except.ok (Except.ok.inj h)

/-- The part that a refusal by the check names. -/
inductive Fault.Names : Fault → Expr → Prop where
  | quotient (e : Expr) : Names (.divisionByZero e) e
  | power (e : Expr) : Names (.zeroToNegativePower e) e
  | head (e : Expr) : Names (.undefinedAtZero e) e

end SymbolicAlgebra
