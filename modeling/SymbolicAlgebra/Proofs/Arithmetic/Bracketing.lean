import SymbolicAlgebra.Proofs.Arithmetic.Sum

/-! Adding up several expressions, in any order and with any brackets. Each addition
collects the like terms of a sum, writes them down and leaves them to be read off again by
the next, so what is carried from one to the next is how much there is of each product. -/

namespace SymbolicAlgebra.Expr

variable {a b e : Expr}

/-- What the term is a rational multiple of is no sum, not infinite and not indeterminate. -/
structure IsOrdinary (x : Expr) : Prop where
  plain : x.asMultiple.2.isSum = false
  finite : x.asMultiple.2 ≠ infinity
  defined : x.asMultiple.2 ≠ undefined

instance : Decidable e.IsOrdinary :=
  decidable_of_iff (e.asMultiple.2.isSum = false ∧ e.asMultiple.2 ≠ infinity ∧ e.asMultiple.2 ≠ undefined)
    ⟨fun ⟨plain, finite, defined⟩ => ⟨plain, finite, defined⟩, fun h => ⟨h.plain, h.finite, h.defined⟩⟩

theorem IsOrdinary.isTerm (h : e.IsOrdinary) : IsTerm (Sorting.sort le e.asMultiple.2.factors) := by
  obtain ⟨plain, finite, defined⟩ := h
  obtain ⟨l, atoms, same⟩ := exists_atoms e
  rw [same, factors_sortedProduct atoms, sort_sort]
  rw [same, sortedProduct_eq atoms] at plain finite defined
  exact {
    atoms := forall_mem_sort atoms
    defined := fun single => defined (by rw [single]; rfl)
    sorted := sort_sort l
    plain := plain
    finite := fun single => finite (by rw [single]; rfl) }

/-- Each term is ordinary. One that vanishes adds nothing, whatever it is a multiple of. -/
def IsSummand (e : Expr) : Prop := ∀ x ∈ e.terms, x.asMultiple.1 ≠ 0 → x.IsOrdinary

instance : Decidable e.IsSummand :=
  inferInstanceAs (Decidable (∀ x ∈ e.terms, x.asMultiple.1 ≠ 0 → x.IsOrdinary))

theorem IsSummand.terms (h : e.IsSummand) : Terms e.amounts := by
  intro entry member
  obtain ⟨x, listed, read⟩ := List.mem_filterMap.mp member
  simp only [likeTerm?] at read
  split at read
  next => cases read
  next nonzero =>
    cases read
    exact (h x listed nonzero).isTerm

/-- An addition keeps how much there is of each product. -/
theorem plus_amounts (h : Terms a.amounts) (k : Terms b.amounts) :
    Terms (a.plus b).amounts ∧ SameAmounts (a.plus b).amounts (a.amounts ++ b.amounts) := by
  rw [plus_eq]
  exact collected_amounts (h.append k)

/-- An order and a bracketing in which some expressions are added up. -/
inductive Bracketing where
  | one (e : Expr)
  | both (left right : Bracketing)

namespace Bracketing

def summands : Bracketing → List Expr
  | one e => [e]
  | both s t => s.summands ++ t.summands

def total : Bracketing → Expr
  | one e => e
  | both s t => s.total.plus t.total

variable {s t : Bracketing}

/-- The amounts of all summands together. -/
def available (s : Bracketing) : LikeTerms := s.summands.flatMap amounts

theorem available_both (s t : Bracketing) : (both s t).available = s.available ++ t.available :=
  List.flatMap_append

theorem summands_ne_nil (s : Bracketing) : s.summands ≠ [] := by
  induction s with
  | one e => exact List.cons_ne_nil e []
  | both s t left _ => exact List.append_ne_nil_of_left_ne_nil left _

/-- However they are added up, the total has the amounts of the summands. -/
theorem total_amounts (h : ∀ e ∈ s.summands, e.IsSummand) :
    Terms s.total.amounts ∧ SameAmounts s.total.amounts s.available := by
  induction s with
  | one e =>
      refine ⟨(h e (List.mem_singleton_self e)).terms, fun w => ?_⟩
      rw [available, summands, List.flatMap_singleton, total]
  | both s t left right =>
      obtain ⟨first, second⟩ := List.forall_mem_append.mp h
      obtain ⟨terms, same⟩ := left first
      obtain ⟨terms', same'⟩ := right second
      obtain ⟨both, kept⟩ := plus_amounts terms terms'
      refine ⟨both, fun w => ?_⟩
      rw [total, kept, available_both, weighted_append, weighted_append, same, same']

/-- What at least one addition makes of the summands is the sum that collects them. -/
theorem total_both (h : ∀ e ∈ (both s t).summands, e.IsSummand) :
    (both s t).total = collected (both s t).available := by
  obtain ⟨first, second⟩ := List.forall_mem_append.mp h
  obtain ⟨terms, same⟩ := total_amounts first
  obtain ⟨terms', same'⟩ := total_amounts second
  have present : Terms (both s t).available := by
    intro entry member
    obtain ⟨e, listed, inside⟩ := List.mem_flatMap.mp member
    exact (h e listed).terms entry inside
  rw [total, plus_eq]
  apply collected_congr (terms.append terms') present
  intro w
  rw [available_both, weighted_append, weighted_append, same, same']

/-- Neither the order nor the brackets matter: the same summands have one total. -/
theorem total_eq_of_perm (perm : s.summands.Perm t.summands) (h : ∀ e ∈ s.summands, e.IsSummand) :
    s.total = t.total := by
  have k : ∀ e ∈ t.summands, e.IsSummand := fun e member => h e (perm.mem_iff.mpr member)
  have several (u v : Bracketing) : 2 ≤ (both u v).summands.length := by
    have left := List.length_pos_iff.mpr u.summands_ne_nil
    have right := List.length_pos_iff.mpr v.summands_ne_nil
    rw [summands, List.length_append]
    omega
  have length := perm.length_eq
  match s, t with
  | one e, one f => exact (List.singleton_perm_singleton.mp perm)
  | one e, both u v =>
      have := several u v
      rw [← length] at this
      simp [summands] at this
  | both u v, one e =>
      have := several u v
      rw [length] at this
      simp [summands] at this
  | both u v, both u' v' =>
      rw [total_both h, total_both k]
      exact congrArg ofLikeTerms (Tally.ofList_eq_of_perm (perm.flatMap_right amounts))

/-- In each of the two ways other terms cancel first. -/
theorem total_of_cancelling_summands :
    let a := sub (var "x") (mul (var "y") (const 2))
    let b := add (neg (var "x")) (mul (const 0) infinity)
    let c := add (mul (var "y") (const 2)) (pow (var "x") (const 2))
    (both (both (one a) (one b)) (one c)).total = (both (one b) (both (one a) (one c))).total ∧
      (both (one b) (both (one a) (one c))).total = pow (var "x") (const 2) := by
  intro a b c
  refine ⟨total_eq_of_perm (List.Perm.swap b a [c]) ?_, by decide +kernel⟩
  have summands : ∀ e ∈ [a, b, c], e.IsSummand := by decide +kernel
  exact summands

end Bracketing
end SymbolicAlgebra.Expr
