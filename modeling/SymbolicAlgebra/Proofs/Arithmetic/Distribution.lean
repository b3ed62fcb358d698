import SymbolicAlgebra.Arithmetic.Expansion
import SymbolicAlgebra.Proofs.Arithmetic.Product
import SymbolicAlgebra.Proofs.Arithmetic.Size

/-! Products of sums, multiplied out. Nothing is a divisor and the terms are few, so each
term of the one sum meets each term of the other, whichever sum is taken apart first. -/

namespace SymbolicAlgebra.Expr

variable {x y a b e f : Expr} {l m : List Expr} {A B : LikeTerms} {q r : Rat}

/-- A power with a negative number as exponent. -/
def isDivisor : Expr → Bool
  | pow _ (const k) => k < 0
  | _ => false

theorem isDivisor_powers_var {name : String} (nonneg : 0 ≤ q) (member : f ∈ powers (var name) q) :
    f.isDivisor = false := by
  unfold powers at member
  split at member
  · cases member
  · split at member <;> rw [List.mem_singleton.mp member]
    · rfl
    · simpa [isDivisor] using nonneg

theorem hasDivisor_eq (e : Expr) : e.hasDivisor = e.factors.any isDivisor := by
  rw [hasDivisor]
  congr 1

theorem not_isDivisor_const (q : Rat) : (const q).factors.any isDivisor = false := by
  rw [factors.eq_def]
  dsimp only
  split <;> rfl

theorem hasDivisor_multiple (h : ∀ f ∈ l, f.isFactor = true) (plain : ∀ f ∈ l, f.isDivisor = false)
    (q : Rat) : (multiple q l).hasDivisor = false := by
  have sorted : (sortedProduct l).factors.any isDivisor = false := by
    rw [factors_sortedProduct (atoms h), List.any_eq_false]
    intro f member
    simpa using plain f ((Sorting.mem_sort le f l).mp member)
  rw [hasDivisor_eq]
  by_cases vanishes : q = 0
  · rw [vanishes]
    rfl
  by_cases empty : l = []
  · rw [empty, multiple_nil, not_isDivisor_const]
  obtain ⟨-, same⟩ | ⟨-, same⟩ | ⟨one_ne, -, same⟩ := multiple_cases (isMonic h) vanishes empty
  · rw [same, sorted]
  · rw [same]
    rfl
  · rw [same, factors, List.any_append, not_isDivisor_const, sorted]
    rfl

theorem hasDivisor_collected (keys : Keyed A) (plain : ∀ entry ∈ A, ∀ f ∈ entry.1, f.isDivisor = false) :
    (collected A).hasDivisor = false := by
  have written := sumOf_collected keys.terms
  generalize collected A = e at written
  cases written with
  | zero => rfl
  | multiple proper _ =>
      obtain ⟨c, listed⟩ := proper
      exact hasDivisor_multiple (keys _ listed).factors (plain _ listed) _
  | add => rfl

theorem length_termsWithSign (e : Expr) (negative : Bool) :
    (e.termsWithSign negative).length = e.termCount := by
  induction e generalizing negative with
  | add a b left right | sub a b left right =>
      rw [termsWithSign, List.length_append, left, right, termCount]
  | neg a ih => exact ih _
  | _ => rfl

theorem termCount_pos (e : Expr) : 0 < e.termCount := by
  induction e with
  | add a b left right | sub a b left right => exact Nat.add_pos_left left _
  | neg a ih => exact ih
  | _ => exact Nat.one_pos

theorem expandTimes_of_not_sum (left : x.isSum = false) (right : y.isSum = false) :
    expandTimes x y = x.times y := by
  rw [expandTimes.eq_def]
  simp only [left, right, Bool.false_and, Bool.false_eq_true, if_false, ite_self]

/-- A sum is taken apart. -/
theorem expandTimes_add (plain : y.hasDivisor = false)
    (few : (add a b).termCount * y.termCount ≤ expansionLimit) :
    expandTimes (add a b) y = (expandTimes a y).plus (expandTimes b y) := by
  have sum : (add a b).isSum = true := rfl
  rw [expandTimes.eq_def, if_pos few, sum, plain]
  rfl

/-- Where only the second operand is a sum, that one is taken apart. -/
theorem expandTimes_swap (left : x.isSum = false) (no_left : x.hasDivisor = false)
    (few : x.termCount * (add a b).termCount ≤ expansionLimit) :
    expandTimes x (add a b) = expandTimes (add a b) x := by
  rw [expandTimes_add no_left (by rwa [Nat.mul_comm]), expandTimes.eq_def, if_pos few, left, no_left]
  rfl

theorem termCount_multiple (h : IsKey l) (q : Rat) : (multiple q l).termCount = 1 := by
  rw [← length_termsWithSign _ false, h.termsWithSign_multiple]
  rfl

theorem times_zero (h : ∀ f ∈ l, f.isFactor = true) (q : Rat) : (multiple q l).times zero = zero := by
  have plain : MultipliesPlainly (multiple q l) zero := .number_right fun _ => rfl
  rw [times_eq_timesPlain plain, (isFinite_multiple h q).timesPlain_zero_right]

theorem zero_times (h : ∀ f ∈ l, f.isFactor = true) (q : Rat) : zero.times (multiple q l) = zero := by
  rw [times_comm, times_zero h]

/-- A sum with few terms times what is no sum is multiplied term by term. -/
theorem expandTimes_collected (keys : Keyed A) {F : List Expr → LikeTerms} (right : y.isSum = false)
    (plain : y.hasDivisor = false) (vanishing : zero.times y = zero)
    (keyed : ∀ entry ∈ A, Keyed (F entry.1))
    (products : ∀ entry ∈ A, ∀ q ≠ 0, (multiple q entry.1).times y = collected (substituted F [(entry.1, q)]))
    (few : (collected A).termCount * y.termCount ≤ expansionLimit) :
    expandTimes (collected A) y = collected (substituted F A) := by
  apply map_collected (P := fun e => e.termCount * y.termCount ≤ expansionLimit)
    (g := fun e => expandTimes e y) keys
  · exact fun a b => expandTimes_add plain
  · intro a b few
    exact (Nat.mul_le_mul_right _ (Nat.le_add_right _ _)).trans few
  · exact (expandTimes_of_not_sum rfl right).trans vanishing
  · exact keyed
  · intro entry member q q_ne
    exact (expandTimes_of_not_sum ((keys entry member).isSum_multiple q) right).trans
      (products entry member q q_ne)
  · exact few

theorem expandTimes_zero (keys : Keyed A) (few : (collected A).termCount ≤ expansionLimit) :
    expandTimes (collected A) zero = zero := by
  have nothing (B : LikeTerms) : substituted (fun _ => []) B = [] := by simp [substituted]
  have product := expandTimes_collected (F := fun _ => []) (y := zero) keys rfl (by decide)
    (times_zero (List.forall_mem_nil _) 0) (fun _ _ => List.forall_mem_nil _) (fun entry member q _ => by
      rw [nothing]
      exact times_zero (keys entry member).factors q) (by rwa [show zero.termCount = 1 from rfl, Nat.mul_one])
  rwa [nothing] at product

/-- How a product is joined to the products of a list. -/
def Joins (join : List Expr → List Expr) (A : LikeTerms) (m : List Expr) : Prop :=
  ∀ entry ∈ A, IsKey (join entry.1) ∧
    ∀ q r : Rat, (multiple q entry.1).times (multiple r m) = multiple (q * r) (join entry.1)

theorem expandTimes_multiple {join : List Expr → List Expr} (keys : Keyed A) (key : IsKey m)
    (plain : ∀ f ∈ m, f.isDivisor = false) (joins : Joins join A m) (r : Rat)
    (few : (collected A).termCount ≤ expansionLimit) : expandTimes (collected A) (multiple r m) =
      collected (A.map fun entry => (join entry.1, entry.2 * r)) := by
  have single (B : LikeTerms) : substituted (fun l => [(join l, r)]) B =
      B.map fun entry => (join entry.1, entry.2 * r) := by
    rw [substituted, List.map_eq_flatMap]
    rfl
  rw [← single]
  apply expandTimes_collected keys (key.isSum_multiple r) (hasDivisor_multiple key.factors plain r)
    (zero_times key.factors r)
  · exact fun entry member => List.forall_mem_singleton.mpr (joins entry member).1
  · intro entry member q _
    rw [single, (joins entry member).2, (joins entry member).1.multiple_eq]
    rfl
  · rwa [termCount_multiple key, Nat.mul_one]

/-- What multiplying out makes of two lists of amounts, given how their products are joined. -/
def distributed (join : List Expr → List Expr → List Expr) (A B : LikeTerms) : LikeTerms :=
  A.flatMap fun s => B.map fun t => (join s.1 t.1, s.2 * t.2)

/-- Two sums with few terms are multiplied out. -/
theorem expandTimes_distributed {join : List Expr → List Expr → List Expr} (keys : Keyed A)
    (keys' : Keyed B) (joins : ∀ t ∈ B, Joins (fun l => join l t.1) A t.1)
    (joins' : ∀ s ∈ A, Joins (fun m => join s.1 m) B s.1)
    (plain : ∀ entry ∈ A, ∀ f ∈ entry.1, f.isDivisor = false)
    (plain' : ∀ entry ∈ B, ∀ f ∈ entry.1, f.isDivisor = false)
    (distinct : (B.map Prod.fst).Nodup) (nonzero : ∀ entry ∈ B, entry.2 ≠ 0) (some_term : B ≠ [])
    (few : (collected A).termCount * (collected B).termCount ≤ expansionLimit) :
    expandTimes (collected A) (collected B) = collected (distributed join A B) := by
  have few_left := (Nat.le_mul_of_pos_right _ (collected B).termCount_pos).trans few
  have few_right := (Nat.le_mul_of_pos_left _ (collected A).termCount_pos).trans few
  by_cases single : B.length = 1
  · obtain ⟨t, rfl⟩ := List.length_eq_one_iff.mp single
    have key := keys' t (List.mem_singleton_self t)
    rw [show [t] = [(t.1, t.2)] from rfl, ← key.multiple_eq,
      expandTimes_multiple keys key (plain' t (List.mem_singleton_self t))
        (joins t (List.mem_singleton_self t)) t.2 few_left, distributed, List.map_eq_flatMap]
    rfl
  · have two : 2 ≤ B.length := by
      have := List.length_pos_iff.mpr some_term
      omega
    have noDivisor := hasDivisor_collected keys' plain'
    have swapped (x : Expr) (left : x.isSum = false) (no_left : x.hasDivisor = false)
        (one : x.termCount = 1) : expandTimes x (collected B) = expandTimes (collected B) x := by
      obtain ⟨a, b, shape⟩ := exists_add_collected keys' distinct nonzero two
      rw [shape] at few_right ⊢
      exact expandTimes_swap left no_left (by rwa [one, Nat.one_mul])
    have whole (C : LikeTerms) : distributed join C B =
        substituted (fun l => B.map fun t => (join l t.1, t.2)) C := by
      simp only [distributed, substituted, List.map_map, Function.comp_def]
    rw [whole]
    apply map_collected (P := fun e => e.termCount * (collected B).termCount ≤ expansionLimit)
      (g := fun e => expandTimes e (collected B)) keys
    · exact fun a b => expandTimes_add noDivisor
    · intro a b few
      exact (Nat.mul_le_mul_right _ (Nat.le_add_right _ _)).trans few
    · exact (swapped zero rfl (by decide) rfl).trans (expandTimes_zero keys' few_right)
    · intro entry member part inside
      obtain ⟨t, listed, rfl⟩ := List.mem_map.mp inside
      exact (joins t listed entry member).1
    · intro entry member q _
      have key := keys entry member
      rw [swapped _ (key.isSum_multiple q) (hasDivisor_multiple key.factors (plain entry member) q)
        (termCount_multiple key q), expandTimes_multiple keys' key (plain entry member)
        (joins' entry member) q few_right, ← whole, distributed]
      simp [mul_comm]
    · exact few

end SymbolicAlgebra.Expr
