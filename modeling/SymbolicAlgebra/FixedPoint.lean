import SymbolicAlgebra.Evaluation
import SymbolicAlgebra.Identity.Trigonometric

/-! Simplification: passes of evaluation, each followed by at most one
trigonometric identity, until a pass changes nothing or the count is used up. -/

namespace SymbolicAlgebra.Expr

/-- One pass on its own. -/
def pass (e : Expr) : Expr :=
  match joinTerms? e.evaluate.terms with
  | none => e.evaluate
  | some (joined, rest) => (sum (joined :: rest)).evaluate

/-- One pass that shares its results with the other passes. -/
def passIn (e : Expr) (table : Table) : { r : Expr // r = e.pass } × Table :=
  match evaluateIn e table with
  | (⟨r, r_eq⟩, table) =>
    match h : joinTerms? r.terms with
    | none => (⟨r, by rw [pass, ← r_eq, h]⟩, table)
    | some (joined, rest) =>
      match evaluateIn (sum (joined :: rest)) table with
      | (s, table) => (⟨s.result, by rw [pass, ← r_eq, h, s.result_eq]⟩, table)

/-- Passes until one changes nothing, at most `n`, over one table. -/
def simplifyIn (table : Table) : Nat → Expr → Expr
  | 0, e => e
  | n + 1, e =>
      match passIn e table with
      | (⟨next, _⟩, table) => if next = e then e else simplifyIn table n next

def passes : Nat → Expr → Expr
  | 0, e => e
  | n + 1, e => passes n e.pass

theorem passes_fixed {e : Expr} (fixed : e.pass = e) (n : Nat) : passes n e = e := by
  induction n with
  | zero => rfl
  | succ n ih => rw [passes, fixed, ih]

/-- Neither the table nor the early end changes a result. -/
theorem simplifyIn_eq_passes (table : Table) (n : Nat) (e : Expr) :
    simplifyIn table n e = passes n e := by
  induction n generalizing table e with
  | zero => rfl
  | succ n ih =>
      rw [simplifyIn, passes]
      split
      next result result_eq table _ =>
        subst result_eq
        split
        next fixed => rw [fixed, passes_fixed fixed]
        next => exact ih table e.pass

def simplifyWithin (e : Expr) (n : Nat) : Expr := simplifyIn ∅ n e

theorem simplifyWithin_eq_passes (e : Expr) (n : Nat) : e.simplifyWithin n = passes n e :=
  simplifyIn_eq_passes ∅ n e

def defaultPasses : Nat := 64

def simplify (e : Expr) : Expr := e.simplifyWithin defaultPasses

end SymbolicAlgebra.Expr
