import SymbolicAlgebra.Proofs.Safety.CanonicalForm

/-! Divisions in what is printed for an accepted text. The check sees each divisor and each
base by itself, and evaluation joins powers whose exponents the check takes for unknown. So
no division is left in any case, and a negative power of zero only where what is evaluated
does not divide safely. -/

namespace SymbolicAlgebra

theorem Valuation.not_safe_zero_pow {K : Type*} [Field K] [DecidableEq K] [CharZero K] {V : Valuation K}
    {q : ℚ} (q_neg : q < 0) : ¬ V.Safe (.pow (.const 0) (.const q)) := by
  intro safe
  obtain ⟨y, z, base, exponent, has⟩ := means_pow.mp (safe.defined_of_neg q_neg).means
  rw [means_const, Rat.cast_zero] at base
  rw [means_const] at exponent
  subst exponent
  exact V.base_ne_zero_of_power_neg q_neg has base.symm

namespace Expr

/-- What is printed for an accepted text has no divisions. It has no negative powers of zero
if, for some reading and some values of its symbols, the text or what it is evaluated to
divides safely. The rest of it needs no value, so infinities may stand there. -/
theorem accepted_text_divides_by_no_zero (settings : Settings) (text : String) (e : Expr)
    (accepted : ofBoundText text = .ok e ∨ ofIntegrandText settings text = .ok e) :
    (∀ a b, div a b ∉ e.parts) ∧
      ∃ read, ofStatementText text = .ok read ∧
        ∀ {K : Type*} [Field K] [DecidableEq K] [CharZero K] (V : Valuation K),
          V.Safe read ∨ V.Safe read.evaluate → ∀ q < 0, pow (const 0) (const q) ∉ e.parts := by
  obtain ⟨read, isRead, checked, result⟩ := read_of_accepted accepted
  have free := divisionFree_of_requireDefined checked
  constructor
  · have H := hereditary_divisionFree
    rcases result with rfl | rfl
    · exact free
    · exact H.canonicalize _ (H.passClosed.simplify_of_evaluate free)
  · refine ⟨read, isRead, ?_⟩
    intro K _ _ _ V safe q q_neg member
    have evaluated : V.Safe read.evaluate := safe.elim Valuation.Safe.evaluate id
    have kept : V.Safe e := by
      rcases result with rfl | rfl
      · exact evaluated
      · exact (Valuation.passClosed_safe.simplify_of_evaluate evaluated).canonicalize _
    exact Valuation.not_safe_zero_pow q_neg (kept.part member)

/-- The bound `1/oo + 2^(-oo)/x` at two. The first term comes to zero. In the second one the
power is that of a positive number, and the divisor has a value. -/
theorem accepted_quotient_divides_by_no_zero :
    let e := mul (pow (var "x") (const (-1))) (pow (const 2) (neg infinity))
    ofBoundText "1/oo + 2**(-oo)/x" = .ok e ∧ (∀ a b, div a b ∉ e.parts) ∧
      ∀ q < 0, pow (const 0) (const q) ∉ e.parts := by
  intro e
  have accepted : ofBoundText "1/oo + 2**(-oo)/x" = .ok e := by decide +kernel
  obtain ⟨free, read, isRead, nonzero⟩ :=
    accepted_text_divides_by_no_zero {} "1/oo + 2**(-oo)/x" e (.inl accepted)
  let sum := add (div (const 1) infinity) (div (pow (const 2) (neg infinity)) (var "x"))
  have parsed : ofStatementText "1/oo + 2**(-oo)/x" = .ok sum := by decide +kernel
  have evaluated : sum.evaluate = e := by decide +kernel
  obtain rfl := Except.ok.inj (isRead.symm.trans parsed)
  let V := RealFunction.valuation fun _ => 2
  have divisor : V.Defined (pow (var "x") (const (-1))) :=
    ⟨2⁻¹, Valuation.means_pow.mpr ⟨2, -1, (Valuation.means_var _).mpr rfl, by simp, V.power_inv two_ne_zero⟩⟩
  have power : V.HasPowers (const 2) := by
    refine ⟨2, by simp, fun q => ⟨2 ^ (q : ℝ), ?_⟩⟩
    exact RealFunction.power_eq_some.mpr ⟨.inl two_pos, rfl⟩
  exact ⟨accepted, free, nonzero V (.inr (evaluated ▸ ⟨.inl divisor, .inr (.inr ⟨power, trivial⟩)⟩))⟩

/-- Without a value for its powers the text may come to a negative power of zero: the check
sees no number in the exponents of `0^x 0^(-x-1)`, and no zero in the divisor `0^(1/2)`. -/
theorem joined_powers_of_zero_are_accepted :
    ofBoundText "0**x*0**(-x-1)" = .ok (pow (const 0) (const (-1))) ∧
      ofBoundText "1/sqrt(0)" = .ok (pow (const 0) (const (-1 / 2))) ∧
      ¬ ∀ (settings : Settings) (text : String) (e : Expr),
        ofBoundText text = .ok e ∨ ofIntegrandText settings text = .ok e →
          (∀ a, div a (const 0) ∉ e.parts) ∧ ∀ q < 0, pow (const 0) (const q) ∉ e.parts := by
  have joined : ofBoundText "0**x*0**(-x-1)" = .ok (pow (const 0) (const (-1))) := by decide +kernel
  have root : ofBoundText "1/sqrt(0)" = .ok (pow (const 0) (const (-1 / 2))) := by decide +kernel
  refine ⟨joined, root, ?_⟩
  intro refused
  exact (refused {} _ _ (.inl joined)).2 (-1) (by norm_num) (.head _)

end Expr
end SymbolicAlgebra
