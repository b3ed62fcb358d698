import SymbolicAlgebra.Proofs.Arithmetic.Raising
import SymbolicAlgebra.Proofs.Collection.Tally

/-! Properties of a node that depend on its parts, such as being free of a symbol or of
division nodes. They are kept by every operation that only takes expressions apart and puts
the parts together again. A property may also forbid nodes that an identity would change,
as the operations build none of them. -/

namespace SymbolicAlgebra
open SymbolicAlgebra.Expr

namespace Expr

/-- True where a sign stays in front: it is folded into a number, cancelled against another
sign and dropped before an indeterminate form. -/
def takesSign : Expr → Bool
  | const _ | neg _ | undefined => false
  | _ => true

end Expr

/-- Numbers have the property, and products where their parts have it. A sum may need more
than that, and what has a sign in front must be able to keep it. -/
structure Inherited (P : Expr → Prop) : Prop where
  const (q : Rat) : P (const q)
  add_parts {a b : Expr} : P (add a b) → P a ∧ P b
  sub_parts {a b : Expr} : P (sub a b) → P a ∧ P b
  mul {a b : Expr} : P (mul a b) ↔ P a ∧ P b
  neg_part {a : Expr} : P (neg a) → P a
  signed {a : Expr} : a.takesSign = true → P a → P (neg a)

/-- A sum has the property where its terms have it, and so has the indeterminate form that
infinite terms may cancel to. -/
structure SumClosed (P : Expr → Prop) : Prop extends Inherited P where
  undefined : P infinity → P undefined
  add {a b : Expr} : P (add a b) ↔ P a ∧ P b
  add_parts := add.mp

/-- An application has the property where its argument has it, whatever the head. -/
structure HeadClosed (P : Expr → Prop) : Prop extends SumClosed P where
  app {f : Fn} {a : Expr} : P (app f a) ↔ P a

/-- A property that every operation gives its result if the operands have it. Differences
and quotients are not built by the operations, and powers only where no rule applies. -/
structure Restored (P : Expr → Prop) : Prop extends HeadClosed P where
  pow_parts {a b : Expr} : P (pow a b) → P a ∧ P b
  irreducible {a b : Expr} : IsIrreduciblePower a b → P a → P b → P (pow a b)

/-- A node has the property exactly where its parts have it. An indeterminate form has it
where infinity does, and a division by zero may replace another division. -/
structure Hereditary (P : Expr → Prop) : Prop extends Restored P where
  sub {a b : Expr} : P (sub a b) ↔ P a ∧ P b
  neg {a : Expr} : P (neg a) ↔ P a
  pow {a b : Expr} : P (pow a b) ↔ P a ∧ P b
  div_parts {a b : Expr} : P (div a b) → P a ∧ P b
  div_zero {a b c : Expr} : P (div a b) → P c → P (div c zero)
  sub_parts := sub.mp
  neg_part := neg.mp
  signed := fun _ h => neg.mpr h
  pow_parts := pow.mp
  irreducible := fun _ h k => pow.mpr ⟨h, k⟩

namespace Inherited

variable {P : Expr → Prop} {a b e : Expr} {l : List Expr}

theorem and {Q : Expr → Prop} (H : Inherited P) (H' : Inherited Q) : Inherited fun e => P e ∧ Q e where
  const q := ⟨H.const q, H'.const q⟩
  add_parts h := and_and_and_comm.mp ⟨H.add_parts h.1, H'.add_parts h.2⟩
  sub_parts h := and_and_and_comm.mp ⟨H.sub_parts h.1, H'.sub_parts h.2⟩
  mul := (and_congr H.mul H'.mul).trans and_and_and_comm
  neg_part := And.imp H.neg_part H'.neg_part
  signed takes := And.imp (H.signed takes) (H'.signed takes)

theorem factors (H : Inherited P) (h : P e) : ∀ f ∈ e.factors, P f := by
  induction e with
  | mul a b iha ihb =>
      obtain ⟨left, right⟩ := H.mul.mp h
      exact List.forall_mem_append.mpr ⟨iha left, ihb right⟩
  | const q =>
      intro f member
      simp only [Expr.factors] at member
      split at member
      next => cases member
      next =>
        obtain rfl := List.mem_singleton.mp member
        exact h
  | _ =>
      intro f member
      obtain rfl := List.mem_singleton.mp member
      exact h

theorem foldl_mul (H : Inherited P) (h : P a) (k : ∀ f ∈ l, P f) : P (l.foldl Expr.mul a) :=
  List.foldlRecOn (motive := P) l _ h fun _ product f member => H.mul.mpr ⟨product, k f member⟩

theorem product (H : Inherited P) (h : ∀ f ∈ l, P f) : P (Expr.product l) := by
  cases l with
  | nil => exact H.const 1
  | cons a rest =>
      obtain ⟨first, others⟩ := List.forall_mem_cons.mp h
      exact H.foldl_mul first others

theorem sort (h : ∀ f ∈ l, P f) : ∀ f ∈ Sorting.sort le l, P f := by
  intro f member
  exact h f ((Sorting.sort_perm le l).mem_iff.mp member)

theorem filter (h : ∀ f ∈ l, P f) (test : Expr → Bool) : ∀ f ∈ l.filter test, P f := by
  intro f member
  exact h f (List.mem_filter.mp member).1

theorem sortedProduct (H : Inherited P) (h : ∀ f ∈ l, P f) : P (Expr.sortedProduct l) :=
  H.product (sort (filter h _))

theorem asMultiple (H : Inherited P) (h : P e) : P e.asMultiple.2 := by
  induction e with
  | const q => exact H.const 1
  | neg a ih => exact ih (H.neg_part h)
  | mul a b iha ihb =>
      obtain ⟨left, right⟩ := H.mul.mp h
      exact H.sortedProduct (List.forall_mem_append.mpr
        ⟨H.factors (iha left), H.factors (ihb right)⟩)
  | _ => exact h

theorem scaledWith (H : Inherited P) (q : Rat) (h : P a) (k : P e) : P (scaledWith a q e) := by
  rw [Expr.scaledWith]
  split
  next => exact H.const 0
  split
  next => exact H.const q
  split
  next => exact k
  split
  next => exact h
  next => exact H.mul.mpr ⟨H.const q, k⟩

theorem negate (H : Inherited P) (h : P e) : P e.negate := by
  induction e with
  | const q => exact H.const (-q)
  | neg a => exact H.neg_part h
  | undefined => exact h
  | mul a b _ ih =>
      cases a with
      | const q =>
          obtain ⟨-, right⟩ := H.mul.mp h
          exact H.scaledWith (-q) (ih right) right
      | _ => exact H.signed rfl h
  | _ => exact H.signed rfl h

theorem scaled (H : Inherited P) (q : Rat) (h : P e) : P (scaled q e) :=
  H.scaledWith q (H.negate h) h

theorem termsWithSign (H : Inherited P) (negative : Bool) (h : P e) :
    ∀ t ∈ e.termsWithSign negative, P t := by
  induction e generalizing negative with
  | add a b iha ihb =>
      obtain ⟨left, right⟩ := H.add_parts h
      exact List.forall_mem_append.mpr ⟨iha negative left, ihb negative right⟩
  | sub a b iha ihb =>
      obtain ⟨left, right⟩ := H.sub_parts h
      exact List.forall_mem_append.mpr ⟨iha negative left, ihb (!negative) right⟩
  | neg a ih => exact ih (!negative) (H.neg_part h)
  | _ =>
      intro t member
      obtain rfl := List.mem_singleton.mp member
      split
      next => exact H.negate h
      next => exact h

theorem terms (H : Inherited P) (h : P e) : ∀ t ∈ e.terms, P t := H.termsWithSign false h

end Inherited

namespace SumClosed

variable {P : Expr → Prop} {a b e : Expr} {l : List Expr}

theorem foldl_add (H : SumClosed P) (h : P a) (k : ∀ t ∈ l, P t) : P (l.foldl Expr.add a) :=
  List.foldlRecOn (motive := P) l _ h fun _ sum t member => H.add.mpr ⟨sum, k t member⟩

theorem sum (H : SumClosed P) (h : ∀ t ∈ l, P t) : P (Expr.sum l) := by
  cases l with
  | nil => exact H.const 0
  | cons a rest =>
      obtain ⟨first, others⟩ := List.forall_mem_cons.mp h
      exact H.foldl_add first others

theorem likeTerm? (H : SumClosed P) (h : P e) {key : List Expr} {q : Rat}
    (term : Expr.likeTerm? e = some (key, q)) : ∀ f ∈ key, P f := by
  rw [Expr.likeTerm?] at term
  dsimp only at term
  split at term
  next => cases term
  next =>
    obtain ⟨rfl, -⟩ := Prod.mk.inj (Option.some.inj term)
    exact Inherited.sort (H.factors (H.asMultiple h))

/-- The keys of like terms are lists of factors of the terms. -/
theorem likeTerms (H : SumClosed P) (h : ∀ t ∈ l, P t) :
    ∀ entry ∈ Expr.likeTerms l, ∀ f ∈ entry.1, P f := by
  intro entry member
  obtain ⟨q, listed⟩ := Tally.key_of_mem_ofList member
  obtain ⟨t, present, term⟩ := List.mem_filterMap.mp listed
  exact H.likeTerm? (h t present) term

theorem signedInfinity (H : SumClosed P) (q : Rat) (h : P infinity) : P (signedInfinity q) := by
  rw [Expr.signedInfinity]
  split
  next => exact h
  next => exact H.signed rfl h

theorem written (H : SumClosed P) {t : LikeTerms} (h : ∀ entry ∈ t, ∀ f ∈ entry.1, P f) :
    ∀ e ∈ t.written, P e := by
  have terms : ∀ e ∈ (t.filter fun entry => !entry.1.isEmpty && entry.2 ≠ 0).map fun entry =>
      Expr.scaled entry.2 (Expr.product entry.1), P e := by
    intro e member
    obtain ⟨entry, kept, rfl⟩ := List.mem_map.mp member
    exact H.scaled _ (H.product (h entry (List.mem_filter.mp kept).1))
  simp only [LikeTerms.written]
  split
  next => exact terms
  next =>
    refine List.forall_mem_append.mpr ⟨terms, ?_⟩
    intro e member
    obtain rfl := List.mem_singleton.mp member
    exact H.const _

theorem ofLikeTerms (H : SumClosed P) {t : LikeTerms} (h : ∀ entry ∈ t, ∀ f ∈ entry.1, P f) :
    P (Expr.ofLikeTerms t) := by
  rw [Expr.ofLikeTerms]
  split
  next found =>
    obtain ⟨q, listed⟩ := Option.isSome_iff_exists.mp found
    exact h _ (Tally.mem_of_find? listed) Expr.undefined (.head _)
  split
  next q listed =>
    have infinite : P infinity := h _ (Tally.mem_of_find? listed) infinity (.head _)
    split
    next => exact H.undefined infinite
    next => exact H.signedInfinity q infinite
  next => exact H.sum (H.written h)

theorem plus (H : SumClosed P) (h : P a) (k : P b) : P (a.plus b) :=
  H.ofLikeTerms (H.likeTerms (List.forall_mem_append.mpr ⟨H.terms h, H.terms k⟩))

theorem minus (H : SumClosed P) (h : P a) (k : P b) : P (a.minus b) := H.plus h (H.negate k)

end SumClosed
end SymbolicAlgebra
