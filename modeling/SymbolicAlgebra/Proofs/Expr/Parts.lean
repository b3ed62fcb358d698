import SymbolicAlgebra.Proofs.Hereditary
import SymbolicAlgebra.Proofs.Valuation

/-! The parts of an expression. Each has a value where the whole has one, and an
expression is free of divisions if none of its parts is a division. -/

namespace SymbolicAlgebra.Expr

/-- The expression itself and everything inside it. -/
def parts (e : Expr) : List Expr :=
  e :: match e with
  | var _ | const _ | pi | infinity | undefined => []
  | add a b | sub a b | mul a b | div a b | pow a b => a.parts ++ b.parts
  | neg a | app _ a => a.parts

theorem mem_parts_self (e : Expr) : e ∈ e.parts := by
  cases e <;> exact List.mem_cons_self

theorem mem_parts_operation {a b e x : Expr} (operation : e.parts = e :: (a.parts ++ b.parts)) :
    x ∈ e.parts ↔ x = e ∨ x ∈ a.parts ∨ x ∈ b.parts := by
  rw [operation, List.mem_cons, List.mem_append]

theorem parts_left {a b e : Expr} (operation : e.parts = e :: (a.parts ++ b.parts)) :
    ∀ x ∈ a.parts, x ∈ e.parts :=
  fun _ member => (mem_parts_operation operation).mpr (.inr (.inl member))

theorem parts_right {a b e : Expr} (operation : e.parts = e :: (a.parts ++ b.parts)) :
    ∀ x ∈ b.parts, x ∈ e.parts :=
  fun _ member => (mem_parts_operation operation).mpr (.inr (.inr member))

theorem forall_parts_operation {P : Expr → Prop} {a b e : Expr} :
    (∀ x ∈ e :: (a.parts ++ b.parts), P x) ↔ P e ∧ (∀ x ∈ a.parts, P x) ∧ ∀ x ∈ b.parts, P x := by
  rw [List.forall_mem_cons, List.forall_mem_append]

/-- What holds of an operation and in both operands holds of all parts. -/
theorem forall_operands {P : Expr → Prop} {a b e : Expr} (whole : P e) (left : ∀ x ∈ a.parts, P x)
    (right : ∀ x ∈ b.parts, P x) : ∀ x ∈ e :: (a.parts ++ b.parts), P x :=
  forall_parts_operation.mpr ⟨whole, left, right⟩

def DivisionFree (e : Expr) : Prop := ∀ a b, div a b ∉ e.parts

theorem hereditary_divisionFree : Hereditary DivisionFree where
  const q := by simp [DivisionFree, parts]
  undefined := by simp [DivisionFree, parts]
  add := by simp [DivisionFree, parts, forall_and]
  sub := by simp [DivisionFree, parts, forall_and]
  mul := by simp [DivisionFree, parts, forall_and]
  pow := by simp [DivisionFree, parts, forall_and]
  neg := by simp [DivisionFree, parts]
  app := by simp [DivisionFree, parts]
  div_parts := by
    intro a b free
    exact absurd List.mem_cons_self (free a b)
  div_zero := by
    intro a b c free
    exact absurd List.mem_cons_self (free a b)

/-- No part is infinite and none is an indeterminate form. -/
def FreeOfInfinity (e : Expr) : Prop := infinity ∉ e.parts ∧ undefined ∉ e.parts

theorem hereditary_freeOfInfinity : Hereditary FreeOfInfinity where
  const q := by simp [FreeOfInfinity, parts]
  undefined := by simp [FreeOfInfinity, parts]
  add := by simp [FreeOfInfinity, parts, and_and_and_comm]
  sub := by simp [FreeOfInfinity, parts, and_and_and_comm]
  mul := by simp [FreeOfInfinity, parts, and_and_and_comm]
  pow := by simp [FreeOfInfinity, parts, and_and_and_comm]
  neg := by simp [FreeOfInfinity, parts]
  app := by simp [FreeOfInfinity, parts]
  div_parts := by simp +contextual [FreeOfInfinity, parts]
  div_zero := by simp +contextual [FreeOfInfinity, parts, zero]

theorem hasUndefined_iff (e : Expr) : e.hasUndefined = true ↔ undefined ∈ e.parts := by
  induction e <;> simp_all [hasUndefined, parts]

end SymbolicAlgebra.Expr

namespace SymbolicAlgebra.Valuation
open SymbolicAlgebra.Expr

variable {K : Type*} [Field K] [DecidableEq K] {V : Valuation K} {a b e p : Expr} {x y : K}

/-- A value is put together from values of all parts. -/
theorem Defined.part (h : V.Defined e) (member : p ∈ e.parts) : V.Defined p := by
  induction e generalizing p with
  | add a b iha ihb =>
      obtain ⟨x, y, left, right, -⟩ := means_add.mp h.means
      exact forall_operands h (fun _ => iha left.defined) (fun _ => ihb right.defined) _ member
  | sub a b iha ihb =>
      obtain ⟨x, y, left, right, -⟩ := means_sub.mp h.means
      exact forall_operands h (fun _ => iha left.defined) (fun _ => ihb right.defined) _ member
  | mul a b iha ihb =>
      obtain ⟨x, y, left, right, -⟩ := means_mul.mp h.means
      exact forall_operands h (fun _ => iha left.defined) (fun _ => ihb right.defined) _ member
  | div a b iha ihb =>
      obtain ⟨x, y, left, right, -⟩ := means_div.mp h.means
      exact forall_operands h (fun _ => iha left.defined) (fun _ => ihb right.defined) _ member
  | pow a b iha ihb =>
      obtain ⟨x, y, left, right, -⟩ := means_pow.mp h.means
      exact forall_operands h (fun _ => iha left.defined) (fun _ => ihb right.defined) _ member
  | neg a ih =>
      obtain ⟨x, inner, -⟩ := means_neg.mp h.means
      rcases List.mem_cons.mp member with rfl | inside
      · exact h
      · exact ih inner.defined inside
  | app f a ih =>
      obtain ⟨x, inner, -⟩ := (means_app f).mp h.means
      rcases List.mem_cons.mp member with rfl | inside
      · exact h
      · exact ih inner.defined inside
  | _ => exact List.mem_singleton.mp member ▸ h

end SymbolicAlgebra.Valuation
