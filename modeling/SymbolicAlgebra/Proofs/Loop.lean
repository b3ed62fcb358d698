/-! Loops over a state. A step gives the next state, or nothing where the loop stops, so a
loop that ends has passed through finitely many states. -/

namespace SymbolicAlgebra

variable {σ : Type} {step : σ → Option σ} {s u : σ}

/-- The loop that starts in the one state stops in the other. -/
inductive EndsIn (step : σ → Option σ) : σ → σ → Prop where
  | stop {s : σ} (last : step s = none) : EndsIn step s s
  | next {s t u : σ} (first : step s = some t) (rest : EndsIn step t u) : EndsIn step s u

theorem EndsIn.stops (h : EndsIn step s u) : step u = none := by
  induction h with
  | stop last => exact last
  | next _ _ ih => exact ih

/-- What no step brings in or loses is there at the end if it is there at the start. -/
theorem EndsIn.invariant {P : σ → Prop} (h : EndsIn step s u)
    (kept : ∀ ⦃s t⦄, step s = some t → (P t ↔ P s)) : P u ↔ P s := by
  induction h with
  | stop => exact .rfl
  | next first _ ih => exact ih.trans (kept first)

end SymbolicAlgebra
