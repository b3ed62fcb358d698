import SymbolicAlgebra.CanonicalForm
import SymbolicAlgebra.Proofs.Arithmetic.Expansion
import SymbolicAlgebra.Proofs.Hereditary.Evaluation
import SymbolicAlgebra.Proofs.NormalForm.Cancellation

/-! Normal form, expansion and canonical form keep hereditary properties. Factored
products, linear forms and polynomials name no symbol that was not read. -/

namespace SymbolicAlgebra
open SymbolicAlgebra.Expr

variable {P : Expr → Prop} {a b e : Expr} {t : Exponents} {p : FactoredProduct}
variable {next : Expr → Expr}

theorem SumClosed.multiplied (H : SumClosed P) (keeps : Keeps P times) {r : Expr}
    (steps : Multiplied a b r) (h : P a) (k : P b) : P r := by
  induction steps with
  | times => exact keeps h k
  | add _ _ iha ihb =>
      obtain ⟨first, second⟩ := H.add.mp h
      exact H.plus (iha first k) (ihb second k)
  | sub _ _ iha ihb =>
      obtain ⟨first, second⟩ := H.sub_parts h
      exact H.minus (iha first k) (ihb second k)
  | swap _ ih => exact ih k h

theorem SumClosed.expandTimes (H : SumClosed P) (keeps : Keeps P times) (h : P a) (k : P b) :
    P (expandTimes a b) :=
  H.multiplied keeps (expandTimes_multiplied a b) h k

namespace Hereditary

theorem var_of_mem_names (H : Hereditary P) (h : P e) {name : String} (member : name ∈ e.names) :
    P (var name) := by
  induction e with
  | var other =>
      obtain rfl := List.mem_singleton.mp member
      exact h
  | add a b iha ihb =>
      obtain ⟨left, right⟩ := H.add.mp h
      exact (List.mem_append.mp member).elim (iha left) (ihb right)
  | sub a b iha ihb =>
      obtain ⟨left, right⟩ := H.sub.mp h
      exact (List.mem_append.mp member).elim (iha left) (ihb right)
  | mul a b iha ihb =>
      obtain ⟨left, right⟩ := H.mul.mp h
      exact (List.mem_append.mp member).elim (iha left) (ihb right)
  | div a b iha ihb =>
      obtain ⟨left, right⟩ := H.div_parts h
      exact (List.mem_append.mp member).elim (iha left) (ihb right)
  | pow a b iha ihb =>
      obtain ⟨left, right⟩ := H.pow.mp h
      exact (List.mem_append.mp member).elim (iha left) (ihb right)
  | neg a ih => exact ih (H.neg.mp h) member
  | app f a ih => exact ih (H.app.mp h) member
  | _ => cases member

section FactoredProduct

theorem splitQuotient (H : Hereditary P) (h : P e) : ∀ f ∈ e.splitQuotient.2, P f := by
  induction e with
  | const q => simp [Expr.splitQuotient]
  | neg a ih => exact ih (H.neg.mp h)
  | mul a b iha ihb =>
      obtain ⟨left, right⟩ := H.mul.mp h
      exact List.forall_mem_append.mpr ⟨iha left, ihb right⟩
  | div a b iha ihb =>
      obtain ⟨left, right⟩ := H.div_parts h
      simp only [Expr.splitQuotient]
      split
      next => exact List.forall_mem_singleton.mpr h
      next =>
        refine List.forall_mem_append.mpr ⟨iha left, ?_⟩
        intro f member
        obtain ⟨d, divisor, rfl⟩ := List.mem_map.mp member
        exact H.pow.mpr ⟨ihb right d divisor, H.const (-1)⟩
  | _ => exact List.forall_mem_singleton.mpr h

theorem addExponent (q : Rat) (h : ∀ entry ∈ t, P entry.1) (k : P b) :
    ∀ entry ∈ Tally.add cmp b q t, P entry.1 := by
  intro entry member
  rcases Tally.key_of_mem_add member with same | ⟨r, present⟩
  · exact same ▸ k
  · exact h (entry.1, r) present

/-- A factored product all of whose bases and symbolic powers have the property. -/
structure Factored (P : Expr → Prop) (p : FactoredProduct) : Prop where
  exponents : ∀ entry ∈ p.exponents, P entry.1
  symbolic : ∀ f ∈ p.symbolic, P f

theorem mulFactor (H : Hereditary P) (h : Factored P p) (k : P e) : Factored P (p.mulFactor e) := by
  cases e with
  | const q => exact ⟨h.exponents, h.symbolic⟩
  | pow base exponent =>
      cases exponent with
      | const q => exact ⟨addExponent q h.exponents (H.pow.mp k).1, h.symbolic⟩
      | _ =>
          exact ⟨h.exponents,
            List.forall_mem_append.mpr ⟨h.symbolic, List.forall_mem_singleton.mpr k⟩⟩
  | _ => exact ⟨addExponent 1 h.exponents k, h.symbolic⟩

theorem mulExpr (H : Hereditary P) (h : Factored P p) (k : P e) : Factored P (p.mulExpr e) :=
  List.foldlRecOn (motive := Factored P) _ _ ⟨h.exponents, h.symbolic⟩
    fun _ accumulated f member => H.mulFactor accumulated (H.splitQuotient k f member)

theorem exponents (H : Hereditary P) (q : Rat) (h : ∀ entry ∈ t, P entry.1) : P (t.toExpr q) := by
  rw [Exponents.toExpr]
  split
  next => exact H.const 0
  next =>
    refine List.foldlRecOn (motive := P) _ _ (H.const q) ?_
    intro product holds entry kept
    exact H.times holds (H.raise (h entry (List.mem_filter.mp kept).1) (H.const _))

theorem Factored.toExpr (H : Hereditary P) (h : Factored P p) : P p.toExpr :=
  List.foldlRecOn (motive := P) _ _ (H.exponents _ h.exponents)
    fun _ product f member => H.times product (h.symbolic f member)

theorem Factored.numerator (H : Hereditary P) (h : Factored P p) : P p.numerator :=
  H.exponents _ fun entry member => h.exponents entry (List.mem_filter.mp member).1

theorem Factored.divisors (h : Factored P p) : ∀ entry ∈ p.divisors, P entry.1 := by
  intro entry member
  obtain ⟨divisor, kept, rfl⟩ := List.mem_map.mp member
  exact h.exponents divisor (List.mem_filter.mp kept).1

end FactoredProduct

section Linear

theorem symbol_add? {m n s : LinearForm} {name : String} (joined : m.add? n = some s)
    (symbol : s.symbol = some name) : m.symbol = some name ∨ n.symbol = some name := by
  rw [LinearForm.add?] at joined
  split at joined
  next left _ =>
    split at joined
    next =>
      obtain rfl := Option.some.inj joined
      exact .inl (left.trans symbol)
    next => cases joined
  next left _ =>
    obtain rfl := Option.some.inj joined
    exact .inl (left.trans symbol)
  next =>
    obtain rfl := Option.some.inj joined
    exact .inr symbol

/-- The symbol of a linear form is one that the expression names. -/
theorem symbol_mem_names {m : LinearForm} (read : LinearForm.ofExpr? e = some m) {name : String}
    (symbol : m.symbol = some name) : name ∈ e.names := by
  induction e generalizing m with
  | var other =>
      obtain rfl := Option.some.inj read
      exact List.mem_singleton.mpr (Option.some.inj symbol).symm
  | const q =>
      obtain rfl := Option.some.inj read
      cases symbol
  | neg a ih =>
      obtain ⟨n, inner, rfl⟩ := Option.map_eq_some_iff.mp read
      exact ih inner symbol
  | add a b iha ihb =>
      obtain ⟨n, left, tail⟩ := Option.bind_eq_some_iff.mp read
      obtain ⟨s, right, joined⟩ := Option.bind_eq_some_iff.mp tail
      rcases symbol_add? joined symbol with first | second
      · exact List.mem_append_left _ (iha left first)
      · exact List.mem_append_right _ (ihb right second)
  | sub a b iha ihb =>
      obtain ⟨n, left, tail⟩ := Option.bind_eq_some_iff.mp read
      obtain ⟨s, right, joined⟩ := Option.bind_eq_some_iff.mp tail
      rcases symbol_add? joined symbol with first | second
      · exact List.mem_append_left _ (iha left first)
      · exact List.mem_append_right _ (ihb right second)
  | mul a b =>
      obtain ⟨q, other, rfl, shape⟩ := LinearForm.ofExpr?_mul read
      have named : other = name := Option.some.inj symbol
      rcases shape with ⟨rfl, rfl⟩ | ⟨rfl, rfl⟩
      · exact List.mem_singleton.mpr named.symm
      · exact List.mem_singleton.mpr named.symm
  | _ => cases read

theorem linearized (H : Hereditary P) (h : P e) : P e.linearized := by
  rw [Expr.linearized]
  cases read : LinearForm.ofExpr? e with
  | none => exact h
  | some m =>
      simp only [Option.map_some, Option.getD_some, LinearForm.toExpr]
      split
      next => exact H.const _
      next name symbol =>
        have named := H.var_of_mem_names h (symbol_mem_names read symbol)
        split
        next => exact H.const _
        split
        next => exact H.times (H.const _) named
        next => exact H.plus (H.times (H.const _) named) (H.const _)

theorem linearPower? (H : Hereditary P) (h : P a) {r : Expr}
    (taken : Expr.linearPower? a b = some r) : P r := by
  obtain ⟨k, m, rfl, -, read, factored⟩ := linearPower?_eq_some taken
  obtain ⟨name, scale, symbol, -, -, rfl⟩ := LinearForm.factoredPower?_eq_some factored
  have named := H.var_of_mem_names h (symbol_mem_names read symbol)
  refine H.times (H.const scale) (H.raise ?_ (H.const k))
  split
  next => exact named
  next => exact H.plus named (H.const _)

theorem normalPower (H : Hereditary P) (h : P a) (k : P b) : P (normalPower a b) := by
  rw [Expr.normalPower]
  split
  next taken => exact H.passClosed.simplify (H.linearPower? h taken)
  next => exact H.raise h k

end Linear

section Cancellation

variable {n m : Expr} {terms : Expr × Expr}

theorem toExpr (H : Hereditary P) {name : String} (named : P (var name)) (q : Poly) :
    P (q.toExpr name) := by
  have term (t : Nat × Rat) : P (Poly.termExpr name t) := by
    have power : P (if t.1 = 1 then var name else .pow (var name) (.const t.1)) := by
      split
      next => exact named
      next => exact H.pow.mpr ⟨named, H.const _⟩
    rw [Poly.termExpr]
    split
    next => exact H.const _
    dsimp only
    split
    next => exact power
    next => exact H.mul.mpr ⟨H.const _, power⟩
  have terms : ∀ e ∈ q.terms.map (Poly.termExpr name), P e := by
    intro e member
    obtain ⟨t, -, rfl⟩ := List.mem_map.mp member
    exact term t
  rw [Poly.toExpr]
  split
  next => exact H.const 0
  next first rest listed =>
    rw [listed] at terms
    exact H.sum terms

theorem cancelGcd? (H : Hereditary P) (h : P n) (k : P m)
    (cancelled : Expr.cancelGcd? n m = some terms) : P terms.1 ∧ P terms.2 := by
  obtain ⟨name, p, q, only, -, -, -, steps⟩ := cancelGcd?_eq_some cancelled
  rcases steps with ⟨-, rfl⟩ | ⟨-, lowest⟩
  · exact ⟨H.const 0, H.const 1⟩
  · have named : P (var name) := by
      have member : name ∈ (div n m).symbols := only ▸ List.mem_singleton_self name
      rcases List.mem_append.mp ((mem_symbols name _).mp member) with left | right
      · exact H.var_of_mem_names h left
      · exact H.var_of_mem_names k right
    have written (q : Poly) := H.passClosed.simplify (H.toExpr named q)
    obtain ⟨p', -, tail⟩ := Option.bind_eq_some_iff.mp lowest
    obtain ⟨q', -, rfl⟩ := Option.map_eq_some_iff.mp tail
    refine ⟨?_, written _⟩
    dsimp only
    split
    next => exact written _
    next => exact H.times (H.const _) (written _)

theorem divisorPower (H : Hereditary P) (h : P e) : P e.divisorPower.1 := by
  unfold Expr.divisorPower
  split
  next => exact (H.pow.mp h).1
  next => exact h

/-- No division is left by a quotient whose denominator has a nonzero coefficient. -/
theorem quotient (H : Hereditary P) (h : P n) (k : P m) (m_ne : m.splitQuotient.1 ≠ 0) :
    P (n.quotient m) := by
  have divisors : ∀ entry ∈ m.splitQuotient.2.foldl (fun exponents f =>
      Tally.add cmp f.divisorPower.1 f.divisorPower.2 exponents) [], P entry.1 := by
    refine List.foldlRecOn (motive := fun t : Exponents => ∀ entry ∈ t, P entry.1) _ _ (by simp) ?_
    intro exponents holds f member
    exact addExponent _ holds (H.divisorPower (H.splitQuotient k f member))
  rw [Expr.quotient]
  split
  next => exact h
  dsimp only
  split
  next vanishes => exact absurd vanishes m_ne
  next =>
    have product := H.exponents 1 divisors
    exact H.times (H.times (H.const _) h) (H.raise product (H.const (-1)))

theorem Factored.cancelled? (H : Hereditary P) (h : Factored P p)
    (cancelled : p.cancelled? = some e) : P e := by
  obtain ⟨terms, lowest, rfl⟩ := FactoredProduct.cancelled?_eq_some cancelled
  obtain ⟨left, right⟩ := H.cancelGcd? (h.numerator H) (H.exponents 1 h.divisors) lowest
  exact H.quotient left right (splitQuotient_of_cancelGcd? lowest)

end Cancellation

section NormalForm

variable (keeps : ∀ ⦃e⦄, P e → P (next e))
include keeps

theorem normalProduct (H : Hereditary P) (h : P e) : P (normalProduct next e) := by
  have factored : Factored P (e.splitQuotient.2.foldl (fun product f => product.mulExpr (next f))
      (.ofCoeff e.splitQuotient.1)) := by
    refine List.foldlRecOn (motive := Factored P) _ _
      ⟨by simp [FactoredProduct.ofCoeff], by simp [FactoredProduct.ofCoeff]⟩ ?_
    intro product accumulated f member
    exact H.mulExpr accumulated (keeps (H.splitQuotient h f member))
  rw [Expr.normalProduct]
  dsimp only
  split
  next => exact H.const 0
  split
  next =>
    cases cancelled : (FactoredProduct.cancelled? _) with
    | none => exact factored.toExpr H
    | some _ => exact factored.cancelled? H cancelled
  next => exact factored.toExpr H

theorem normalLevel (H : Hereditary P) (limit : Nat) (h : P e) :
    P (normalLevel limit next e) := by
  unfold Expr.normalLevel
  split
  next => exact H.passClosed.simplify h
  cases e with
  | add a b =>
      obtain ⟨left, right⟩ := H.add.mp h
      exact H.plus (keeps left) (keeps right)
  | sub a b =>
      obtain ⟨left, right⟩ := H.sub.mp h
      exact H.minus (keeps left) (keeps right)
  | neg a => exact H.negate (keeps (H.neg.mp h))
  | mul a b => exact normalProduct keeps H h
  | div a b => exact normalProduct keeps H h
  | pow a b =>
      obtain ⟨base, exponent⟩ := H.pow.mp h
      exact H.normalPower (keeps base) (keeps exponent)
  | app f a => exact H.app.mpr (H.linearized (keeps (H.app.mp h)))
  | _ => exact h

end NormalForm

theorem normalizeWithin (H : Hereditary P) (limit depth : Nat) :
    ∀ ⦃e⦄, P e → P (normalizeWithin limit depth e) := by
  induction depth with
  | zero =>
      intro e h
      exact h
  | succ depth ih =>
      intro e h
      exact normalLevel ih H limit h

/-- The normal form starts from a simplified expression. -/
theorem normalizeSized (H : Hereditary P) (limit : Nat) (h : P e.simplify) :
    P (e.normalizeSized limit) :=
  H.normalizeWithin limit _ h

theorem expand (H : Hereditary P) (h : P e) : P e.expand := by
  induction e with
  | add a b iha ihb =>
      obtain ⟨left, right⟩ := H.add.mp h
      exact H.plus (iha left) (ihb right)
  | sub a b iha ihb =>
      obtain ⟨left, right⟩ := H.sub.mp h
      exact H.minus (iha left) (ihb right)
  | neg a ih => exact H.negate (ih (H.neg.mp h))
  | mul a b iha ihb =>
      obtain ⟨left, right⟩ := H.mul.mp h
      exact H.expandTimes (fun _ _ => H.times) (iha left) (ihb right)
  | div a b iha ihb =>
      obtain ⟨left, right⟩ := H.div_parts h
      apply H.dividedBy (iha left) (ihb right)
      intro vanishes
      rw [vanishes]
      exact H.div_zero h (iha left)
  | _ => exact h

theorem canonicalize (H : Hereditary P) (n : Nat) (h : P e.simplify) : P (e.canonicalize n) := by
  have factored := H.passClosed.simplifyWithin n (H.normalizeSized normalSizeLimit h)
  unfold Expr.canonicalize
  dsimp only
  split
  next => exact H.passClosed.simplifyWithin n (H.expand factored)
  next => exact factored

end Hereditary
end SymbolicAlgebra
