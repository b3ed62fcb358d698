import SymbolicAlgebra.DefiniteIntegral
import SymbolicAlgebra.Proofs.Arithmetic.InfinitePower
import SymbolicAlgebra.Proofs.Expr.Parts

/-! Indeterminate parts. An operation with an indeterminate operand is indeterminate, apart
from a quotient that has a zero as its divisor or over it. So an indeterminate part comes up
to the whole, one operation after the other, and a bound that has one is refused. -/

namespace SymbolicAlgebra.Expr

variable {a b e s : Expr}

theorem undefined_minus (y : Expr) : undefined.minus y = undefined := undefined_plus y.negate

theorem minus_undefined (x : Expr) : x.minus undefined = undefined := plus_undefined x

theorem apply_undefined (f : Fn) : apply f undefined = undefined := by
  rw [apply]
  split
  next => rfl
  next => exact if_pos rfl

/-- No divisor comes to zero, and no zero is divided by anything with the part inside. -/
structure Exposed (s e : Expr) : Prop where
  divisor : ∀ a b, div a b ∈ e.parts → b.evaluate ≠ zero
  numerator : ∀ a b, div a b ∈ e.parts → s ∈ b.parts → a.evaluate ≠ zero

theorem Exposed.part (h : Exposed s e) (inside : ∀ x ∈ a.parts, x ∈ e.parts) : Exposed s a where
  divisor a b member := h.divisor a b (inside _ member)
  numerator a b member := h.numerator a b (inside _ member)

theorem evaluate_eq_undefined (h : Exposed s e) (inside : s ∈ e.parts)
    (indeterminate : s.evaluate = undefined) : e.evaluate = undefined := by
  induction e with
  | add a b iha ihb =>
      obtain rfl | left | right := (mem_parts_operation rfl).mp inside
      · exact indeterminate
      · rw [evaluate, iha (h.part (parts_left rfl)) left, undefined_plus]
      · rw [evaluate, ihb (h.part (parts_right rfl)) right, plus_undefined]
  | sub a b iha ihb =>
      obtain rfl | left | right := (mem_parts_operation rfl).mp inside
      · exact indeterminate
      · rw [evaluate, iha (h.part (parts_left rfl)) left, undefined_minus]
      · rw [evaluate, ihb (h.part (parts_right rfl)) right, minus_undefined]
  | mul a b iha ihb =>
      obtain rfl | left | right := (mem_parts_operation rfl).mp inside
      · exact indeterminate
      · rw [evaluate, iha (h.part (parts_left rfl)) left, undefined_times]
      · rw [evaluate, ihb (h.part (parts_right rfl)) right, times_undefined]
  | div a b iha ihb =>
      obtain rfl | left | right := (mem_parts_operation rfl).mp inside
      · exact indeterminate
      · have divisor := h.divisor a b (mem_parts_self _)
        rw [evaluate, iha (h.part (parts_left rfl)) left, undefined_dividedBy divisor]
      · have numerator := h.numerator a b (mem_parts_self _) right
        rw [evaluate, ihb (h.part (parts_right rfl)) right, dividedBy_undefined numerator]
  | pow a b iha ihb =>
      obtain rfl | left | right := (mem_parts_operation rfl).mp inside
      · exact indeterminate
      · rw [evaluate, iha (h.part (parts_left rfl)) left, undefined_raise]
      · rw [evaluate, ihb (h.part (parts_right rfl)) right, raise_undefined]
  | neg a ih =>
      obtain rfl | operand := List.mem_cons.mp inside
      · exact indeterminate
      · rw [evaluate, ih (h.part fun _ => List.mem_cons_of_mem _) operand]
        rfl
  | app f a ih =>
      obtain rfl | arg := List.mem_cons.mp inside
      · exact indeterminate
      · rw [evaluate, ih (h.part fun _ => List.mem_cons_of_mem _) arg, apply_undefined]
  | _ => exact List.mem_singleton.mp inside ▸ indeterminate

/-- An indeterminate part makes the whole indeterminate, so that a bound with such a part is
refused for it once it has passed the checks before. -/
theorem indeterminate_parts_are_kept (exposed : Exposed s e) (inside : s ∈ e.parts)
    (indeterminate : s.evaluate = undefined) :
    e.evaluate = undefined ∧ ∀ text, ofStatementText text = .ok e →
      ofBoundText text = (do e.requireDefined; .error (.indeterminate text)) := by
  have whole := evaluate_eq_undefined exposed inside indeterminate
  refine ⟨whole, fun text read => ?_⟩
  rw [ofBoundText, read]
  change (do e.requireDefined; e.evaluate.requireDeterminate text; return e.evaluate) = _
  rw [whole]
  rfl

/-- No factor zero, exponent zero or head drops the difference of two infinities. -/
theorem difference_of_infinities_is_kept :
    let s : Expr := sub infinity infinity
    let e : Expr := mul (const 0) (pow (app .cos (div pi s)) (const 0))
    Exposed s e ∧ s ∈ e.parts ∧ e.evaluate = undefined ∧
      ofBoundText "0*cos(pi/(oo - oo))**0" = .error (.indeterminate "0*cos(pi/(oo - oo))**0") := by
  intro s e
  have inside : s ∈ e.parts := by decide +kernel
  have division : ∀ a b, div a b ∈ e.parts → a = pi ∧ b = s := by simp [e, s, parts]
  have exposed : Exposed s e := by
    constructor
    · intro a b member
      rw [(division a b member).2]
      decide +kernel
    · intro a b member _
      rw [(division a b member).1]
      decide +kernel
  have indeterminate : s.evaluate = undefined := by decide +kernel
  have read : ofStatementText "0*cos(pi/(oo - oo))**0" = .ok e := by decide +kernel
  have checked : e.requireDefined = .ok () := by decide +kernel
  obtain ⟨whole, refused⟩ := indeterminate_parts_are_kept exposed inside indeterminate
  refine ⟨exposed, inside, whole, ?_⟩
  rw [refused _ read, checked]
  rfl

/-- A zero is divided without a look at the divisor. -/
theorem zero_over_difference_of_infinities_is_zero :
    let s : Expr := sub infinity infinity
    let e : Expr := div (const 0) s
    (∀ a b, div a b ∈ e.parts → b.evaluate ≠ zero) ∧ s ∈ e.parts ∧ s.evaluate = undefined ∧
      e.evaluate = zero ∧ ofBoundText "0/(oo - oo)" = .ok zero := by
  intro s e
  have division : ∀ a b, div a b ∈ e.parts → b = s := by simp [e, s, parts]
  have indeterminate : s.evaluate = undefined := by decide +kernel
  refine ⟨fun a b member => ?_, by decide +kernel, indeterminate, by decide +kernel, by decide +kernel⟩
  rw [division a b member]
  decide +kernel

end SymbolicAlgebra.Expr
