import SymbolicAlgebra.Identity.Trigonometric
import SymbolicAlgebra.Proofs.Collection.Picking

/-! What a term looks like in which a squared head or an angle is found: up to the
order of the factors it is put together from what was found. -/

namespace SymbolicAlgebra
open SymbolicAlgebra.Expr

variable {e : Expr} {f : Fn} {l : List Expr}

namespace SquaredTerm

theorem ofFactor?_eq_some {u : Expr} (h : ofFactor? e = some (f, u)) :
    e = pow (.app f u) (const 2) ∧ (f = .sin ∨ f = .cos) := by
  unfold ofFactor? at h
  split at h
  next u k =>
    split at h
    next two =>
      obtain ⟨rfl, rfl⟩ := Prod.mk.inj (Option.some.inj h)
      exact ⟨by rw [two], .inl rfl⟩
    next => cases h
  next u k =>
    split at h
    next two =>
      obtain ⟨rfl, rfl⟩ := Prod.mk.inj (Option.some.inj h)
      exact ⟨by rw [two], .inr rfl⟩
    next => cases h
  next => cases h

/-- The squared head and the other factors of a term that has one. -/
theorem ofTerm?_eq_some {t : SquaredTerm} (h : ofTerm? e = some t) :
    e.asMultiple.2.factors.Perm (.pow (.app t.head t.arg) (.const 2) :: t.rest) ∧
      (t.head = .sin ∨ t.head = .cos) ∧ e.asMultiple.1 = t.coeff := by
  obtain ⟨⟨⟨head, arg⟩, rest⟩, picked, rfl⟩ := Option.map_eq_some_iff.mp h
  obtain ⟨a, factor, perm⟩ := Picking.pick?_perm picked
  obtain ⟨rfl, trigonometric⟩ := ofFactor?_eq_some factor
  exact ⟨perm.trans ((Sorting.sort_perm le rest).symm.cons _), trigonometric, rfl⟩

/-- Only two terms that differ in nothing but the head are joined. -/
theorem join?_eq_some {a b : Option SquaredTerm} {j : Expr} (h : join? a b = some j) :
    ∃ s t, a = some s ∧ b = some t ∧ s.head ≠ t.head ∧ s.coeff = t.coeff ∧ s.arg = t.arg ∧
      s.rest = t.rest ∧ j = scaled s.coeff (Expr.product s.rest) := by
  unfold join? at h
  split at h
  next s t =>
    split at h
    next same =>
      obtain ⟨heads, coeffs, args, rests⟩ := same
      exact ⟨s, t, rfl, rfl, heads, coeffs, args, rests, (Option.some.inj h).symm⟩
    next => cases h
  next => cases h

end SquaredTerm

namespace AngleTerm

/-- The factors of an angle term, with the heads put back. -/
def factors (t : AngleTerm) : List Expr :=
  t.sines.map (.app .sin) ++ t.cosines.map (.app .cos) ++ t.others

theorem eq_of_sineArg? {u : Expr} (h : sineArg? e = some u) : e = .app .sin u := by
  unfold sineArg? at h
  split at h <;> simp_all

theorem eq_of_cosineArg? {u : Expr} (h : cosineArg? e = some u) : e = .app .cos u := by
  unfold cosineArg? at h
  split at h <;> simp_all

theorem perm_args (l : List Expr) : l.Perm
    ((l.filterMap sineArg?).map (.app .sin) ++ (l.filterMap cosineArg?).map (.app .cos) ++
      l.filter fun f => (sineArg? f).isNone && (cosineArg? f).isNone) := by
  induction l with
  | nil => exact .refl _
  | cons a rest ih =>
      cases sine : sineArg? a with
      | some u =>
          obtain rfl := eq_of_sineArg? sine
          have cosine : cosineArg? (app .sin u) = none := rfl
          simp only [List.filterMap_cons, sine, cosine, List.map_cons, List.filter_cons,
            Option.isNone_some, Bool.false_and, Bool.false_eq_true, if_false, List.cons_append]
          exact ih.cons _
      | none =>
          cases cosine : cosineArg? a with
          | some u =>
              obtain rfl := eq_of_cosineArg? cosine
              simp only [List.filterMap_cons, sine, cosine, List.map_cons, List.append_assoc,
                List.filter_cons, Option.isNone_some, Option.isNone_none, Bool.and_false,
                Bool.false_eq_true, if_false, List.cons_append]
              apply (ih.cons _).trans
              rw [List.append_assoc]
              exact List.perm_middle.symm
          | none =>
              simp only [List.filterMap_cons, sine, cosine, List.filter_cons, Option.isNone_none,
                Bool.and_true, if_true]
              exact (ih.cons a).trans List.perm_middle.symm

theorem ofTerm_perm (e : Expr) : e.asMultiple.2.factors.Perm (ofTerm e).factors := by
  refine (perm_args e.asMultiple.2.factors).trans (List.Perm.symm ?_)
  have sorted (l : List Expr) := Sorting.sort_perm le l
  exact (((sorted _).map _).append ((sorted _).map _)).append (sorted _)

/-- The two terms that are joined are two sines and the two cosines of the same
angles, times the same other factors. -/
theorem difference?_eq_some {s c : AngleTerm} {j : Expr} (h : difference? s c = some j) :
    ∃ u v, s.factors = [.app .sin u, .app .sin v] ++ s.others ∧
      c.factors = [.app .cos u, .app .cos v] ++ s.others ∧ s.coeff = c.coeff ∧
      j = scaled s.coeff (if (Expr.product s.others).isOne then .app .cos (.sub u v)
        else .mul (Expr.product s.others) (.app .cos (.sub u v))) := by
  rw [difference?] at h
  split at h
  next u v sines =>
    split at h
    next same =>
      obtain ⟨noCosines, noSines, angles, coeffs, others⟩ := same
      obtain rfl := Option.some.inj h
      refine ⟨u, v, ?_, ?_, coeffs, rfl⟩
      · simp [factors, sines, noCosines]
      · simp [factors, noSines, ← angles, sines, others]
    next => cases h
  next => cases h

end AngleTerm

/-- Two of the terms are joined and the others are kept. -/
theorem joinTerms?_eq_some {j : Expr} {others : List Expr} (h : joinTerms? l = some (j, others)) :
    ∃ a b, l.Perm (a :: b :: others) ∧
      (SquaredTerm.join? (SquaredTerm.ofTerm? a) (SquaredTerm.ofTerm? b) = some j ∨
        AngleTerm.join? (.ofTerm a) (.ofTerm b) = some j) := by
  unfold joinTerms? at h
  dsimp only at h
  split at h
  next found =>
    obtain rfl := Option.some.inj h
    obtain ⟨a, b, joined, perm⟩ := Picking.pickPair?_view found
    exact ⟨a, b, perm, .inl joined⟩
  next =>
    obtain ⟨a, b, joined, perm⟩ := Picking.pickPair?_view h
    exact ⟨a, b, perm, .inr joined⟩

end SymbolicAlgebra
