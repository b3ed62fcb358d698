import SymbolicAlgebra.NormalForm

/-! What the steps of the normal form have found where they give a result. Each step is
taken apart here once; what it keeps is proved from the parts. -/

namespace SymbolicAlgebra

variable {a b e n m r : Expr} {l : LinearForm} {p : FactoredProduct} {k : Rat}

/-- The only products with a linear form are those of a number and a symbol. -/
theorem LinearForm.ofExpr?_mul (h : ofExpr? (.mul a b) = some l) :
    ∃ q name, l = ⟨q, 0, some name⟩ ∧
      (a = .const q ∧ b = .var name ∨ a = .var name ∧ b = .const q) := by
  unfold LinearForm.ofExpr? at h
  split at h
  case h_4 q name same =>
    obtain ⟨rfl, rfl⟩ := Expr.mul.inj same
    exact ⟨q, name, (Option.some.inj h).symm, .inl ⟨rfl, rfl⟩⟩
  case h_5 name q same =>
    obtain ⟨rfl, rfl⟩ := Expr.mul.inj same
    exact ⟨q, name, (Option.some.inj h).symm, .inr ⟨rfl, rfl⟩⟩
  case h_8 => cases h
  all_goals contradiction

theorem LinearForm.factoredPower?_eq_some (h : l.factoredPower? k = some r) :
    ∃ name scale, l.symbol = some name ∧ l.slope ≠ 0 ∧ Number.power? l.slope k = some scale ∧
      r = (Expr.const scale).times (Expr.raise (if l.offset / l.slope = 0 then .var name
        else (Expr.var name).plus (.const (l.offset / l.slope))) (.const k)) := by
  rw [LinearForm.factoredPower?] at h
  split at h
  next => cases h
  next name symbol =>
    split at h
    next => cases h
    next taken =>
      obtain ⟨slope_ne, -⟩ := not_or.mp taken
      obtain ⟨scale, folded, rfl⟩ := Option.map_eq_some_iff.mp h
      exact ⟨name, scale, symbol, slope_ne, folded, rfl⟩

namespace Expr

theorem linearPower?_eq_some (h : linearPower? a b = some r) :
    ∃ k l, b = const k ∧ k.isInt = true ∧ LinearForm.ofExpr? a = some l ∧
      l.factoredPower? k = some r := by
  unfold linearPower? at h
  split at h
  next k =>
    split at h
    next integer =>
      obtain ⟨l, read, factored⟩ := Option.bind_eq_some_iff.mp h
      exact ⟨k, l, rfl, integer, read, factored⟩
    next => cases h
  next => cases h

/-- Two polynomials in the only symbol, of which one is zero or both are divided. -/
theorem cancelGcd?_eq_some {terms : Expr × Expr} (h : cancelGcd? n m = some terms) :
    ∃ name p q, (div n m).symbols = [name] ∧ Poly.ofExpr? name n = some p ∧
      Poly.ofExpr? name m = some q ∧ q.isZero = false ∧
      (p.isZero = true ∧ terms = (zero, one) ∨
        p.isZero = false ∧ lowestTerms? name p q (p.gcd q) = some terms) := by
  rw [cancelGcd?] at h
  split at h
  next name only =>
    obtain ⟨p, left, tail⟩ := Option.bind_eq_some_iff.mp h
    obtain ⟨q, right, tail⟩ := Option.bind_eq_some_iff.mp tail
    split at tail
    next => cases tail
    next q_ne =>
      refine ⟨name, p, q, only, left, right, by simpa using q_ne, ?_⟩
      split at tail
      next vanishing => exact .inl ⟨vanishing, (Option.some.inj tail).symm⟩
      next p_ne =>
        split at tail
        next => cases tail
        next => exact .inr ⟨by simpa using p_ne, tail⟩
  next => cases h

end Expr

theorem FactoredProduct.cancelled?_eq_some (h : p.cancelled? = some e) :
    ∃ terms : Expr × Expr, Expr.cancelGcd? p.numerator (p.divisors.toExpr 1) = some terms ∧
      e = terms.1.quotient terms.2 := by
  rw [FactoredProduct.cancelled?] at h
  split at h
  next => cases h
  next =>
    dsimp only at h
    split at h
    next => cases h
    next =>
      obtain ⟨terms, lowest, rfl⟩ := Option.map_eq_some_iff.mp h
      exact ⟨terms, lowest, rfl⟩

end SymbolicAlgebra
