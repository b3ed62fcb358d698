import SymbolicAlgebra.Definedness
import SymbolicAlgebra.Proofs.Grammar.Range
import SymbolicAlgebra.Proofs.Hereditary.CanonicalForm

/-! Atoms. Nothing that simplifies an expression brings in a symbol or an infinity, and an
indeterminate form comes of an infinity only. So a refusal for a stray symbol or for an
indeterminate form is due to what was written. -/

namespace SymbolicAlgebra

namespace Expr

variable {source a b e : Expr}

/-- The symbols and the infinity are those of the source, and so are indeterminate forms,
unless they come of an infinity. -/
structure DrawnFrom (source e : Expr) : Prop where
  symbols : ∀ name ∈ e.symbols, name ∈ source.symbols
  infinite : infinity ∈ e.parts → infinity ∈ source.parts
  indeterminate : undefined ∈ e.parts → infinity ∈ source.parts ∨ undefined ∈ source.parts

theorem drawnFrom_iff : DrawnFrom source e ↔ (∀ name ∈ e.names, name ∈ source.names) ∧
    (infinity ∈ e.parts → infinity ∈ source.parts) ∧
      (undefined ∈ e.parts → infinity ∈ source.parts ∨ undefined ∈ source.parts) := by
  simp only [← mem_symbols]
  exact ⟨fun h => ⟨h.symbols, h.infinite, h.indeterminate⟩, fun ⟨h, k, l⟩ => ⟨h, k, l⟩⟩

/-- An operation is drawn from where both operands are. -/
theorem drawnFrom_operation (named : e.names = a.names ++ b.names)
    (operation : e.parts = e :: (a.parts ++ b.parts)) (finite : infinity ≠ e) (defined : undefined ≠ e) :
    DrawnFrom source e ↔ DrawnFrom source a ∧ DrawnFrom source b := by
  simp only [drawnFrom_iff, named, List.mem_append, mem_parts_operation operation, finite, defined,
    false_or, or_imp, forall_and]
  tauto

theorem drawnFrom_div : DrawnFrom source (div a b) ↔ DrawnFrom source a ∧ DrawnFrom source b :=
  drawnFrom_operation rfl rfl nofun nofun

theorem hereditary_drawnFrom (source : Expr) : Hereditary (DrawnFrom source) where
  const q := by simp [drawnFrom_iff, names, parts]
  undefined := by simp +contextual [drawnFrom_iff, names, parts]
  add := drawnFrom_operation rfl rfl nofun nofun
  sub := drawnFrom_operation rfl rfl nofun nofun
  mul := drawnFrom_operation rfl rfl nofun nofun
  pow := drawnFrom_operation rfl rfl nofun nofun
  neg := by simp [drawnFrom_iff, names, parts]
  app := by simp [drawnFrom_iff, names, parts]
  div_parts := drawnFrom_div.mp
  div_zero _ h := drawnFrom_div.mpr ⟨h, by simp [drawnFrom_iff, zero, names, parts]⟩

/-- What an expression is brought to by simplification, expansion or a normal form. -/
inductive Rewrites (e : Expr) : Expr → Prop where
  | evaluate : Rewrites e e.evaluate
  | simplifyWithin (n : Nat) : Rewrites e (e.simplifyWithin n)
  | expand : Rewrites e e.expand
  | normalizeSized (limit : Nat) : Rewrites e (e.normalizeSized limit)
  | canonicalize (n : Nat) : Rewrites e (e.canonicalize n)

theorem Rewrites.drawnFrom {r : Expr} (h : Rewrites e r) : DrawnFrom e r := by
  have H := hereditary_drawnFrom e
  have itself : DrawnFrom e e := ⟨fun _ => id, id, .inr⟩
  cases h with
  | evaluate => exact H.evaluate itself
  | simplifyWithin n => exact H.passClosed.simplifyWithin n itself
  | expand => exact H.expand itself
  | normalizeSized limit => exact H.normalizeSized limit (H.passClosed.simplify itself)
  | canonicalize n => exact H.canonicalize n (H.passClosed.simplify itself)

/-- A refusal for stray symbols names symbols of the expression. -/
theorem DrawnFrom.strays (h : DrawnFrom source e) {name : String} {fault : Fault}
    (refused : e.requireOnly name = .error fault) :
    ∃ strays, fault = .strayNames name strays ∧ ∀ stray ∈ strays, stray ∈ source.symbols := by
  rw [requireOnly] at refused
  split at refused
  next => cases refused
  next strays =>
    refine ⟨_, (Except.error.inj refused).symm, fun stray member => ?_⟩
    exact h.symbols stray (List.mem_filter.mp member).1

/-- An expression is determinate if it comes of one without infinities. -/
theorem DrawnFrom.requireDeterminate (h : DrawnFrom source e) (finite : infinity ∉ source.parts)
    (determinate : undefined ∉ source.parts) (text : String) : e.requireDeterminate text = .ok () := by
  have absent : e.hasUndefined ≠ true := by
    rw [Ne, hasUndefined_iff]
    intro member
    rcases h.indeterminate member with infinite | undefined
    · exact finite infinite
    · exact determinate undefined
  rw [Expr.requireDeterminate, if_neg absent]

/-- Whatever an expression is brought to has no symbol and no infinity of its own, and an
indeterminate part only where the expression is infinite or indeterminate in some part. The
checks of a bound and of an integrand thus name only symbols of what was read, and refuse no
text without an infinity as indeterminate. -/
theorem simplification_invents_no_atoms (e : Expr) :
    (∀ r, Rewrites e r → (∀ name ∈ r.symbols, name ∈ e.symbols) ∧
        (infinity ∈ r.parts → infinity ∈ e.parts) ∧
        (undefined ∈ r.parts → infinity ∈ e.parts ∨ undefined ∈ e.parts)) ∧
      (∀ n name fault, (e.canonicalize n).requireOnly name = .error fault →
        ∃ strays, fault = .strayNames name strays ∧ ∀ stray ∈ strays, stray ∈ e.symbols) ∧
      ∀ text, ofStatementText text = .ok e → infinity ∉ e.parts →
        e.evaluate.requireDeterminate text = .ok () ∧
          ∀ n, (e.canonicalize n).requireDeterminate text = .ok () := by
  refine ⟨fun r h => ?_, fun n name fault => ?_, fun text read finite => ?_⟩
  · obtain ⟨symbols, infinite, indeterminate⟩ := h.drawnFrom
    exact ⟨symbols, infinite, indeterminate⟩
  · exact (Rewrites.canonicalize n).drawnFrom.strays
  · obtain ⟨ts, derived⟩ := Grammar.statementText_derived read
    have determinate := derived.determinate
    exact ⟨Rewrites.evaluate.drawnFrom.requireDeterminate finite determinate text,
      fun n => (Rewrites.canonicalize n).drawnFrom.requireDeterminate finite determinate text⟩

/-- Of the two symbols in the text the second is refused, and nothing in it is indeterminate. -/
theorem stray_symbol_was_written :
    let e := sub (div (var "x") (const 2)) (var "y")
    ofStatementText "x/2 - y" = .ok e ∧
      (e.canonicalize 100).requireOnly "x" = .error (.strayNames "x" ["y"]) ∧ "y" ∈ e.symbols ∧
      (e.canonicalize 100).requireDeterminate "x/2 - y" = .ok () := by
  intro e
  obtain ⟨-, named, determinate⟩ := simplification_invents_no_atoms e
  have read : ofStatementText "x/2 - y" = .ok e := by decide +kernel
  have refused : (e.canonicalize 100).requireOnly "x" = .error (.strayNames "x" ["y"]) := by decide +kernel
  obtain ⟨strays, same, present⟩ := named 100 "x" _ refused
  obtain ⟨-, rfl⟩ := Fault.strayNames.inj same
  have accepted := determinate "x/2 - y" read (by decide +kernel)
  exact ⟨read, refused, present "y" (List.mem_singleton_self _), accepted.2 100⟩

end Expr
end SymbolicAlgebra
