import Mathlib.Data.List.Induction
import SymbolicAlgebra.Arithmetic.Sum
import SymbolicAlgebra.Proofs.Arithmetic.Factor
import SymbolicAlgebra.Proofs.Collection.Tally
import SymbolicAlgebra.Proofs.Expr.ListOrder

/-! Sums of rational multiples of products. A collected sum is known by how much of each
product it has, so sums are compared by weights: a number for each product, of which
a sum takes its multiples. What a function does to sums follows from what it does to
one multiple, if it turns the nodes of a sum into additions. -/

namespace SymbolicAlgebra.Expr
open Tally

variable {a b e : Expr} {l m : List Expr} {A B : LikeTerms} {q : Rat}

/-- Lists of factors under which a sum keeps a coefficient: in order, and other than a
single sum, which would be taken apart, or a single infinity, which would absorb it. -/
structure IsTerm (l : List Expr) : Prop extends IsMonic l where
  sorted : Sorting.sort le l = l
  plain : (product l).isSum = false
  finite : l ≠ [infinity]

/-- Such lists of factors that products keep as they are. -/
structure IsKey (l : List Expr) : Prop extends IsTerm l where
  factors : ∀ f ∈ l, f.isFactor = true
  atoms := Expr.atoms factors
  defined := ne_singleton factors rfl
  finite := ne_singleton factors rfl

theorem isKey_nil : IsKey [] where
  factors := by simp
  sorted := rfl
  plain := rfl

theorem isKey_sort (h : ∀ f ∈ l, f.isFactor = true) (plain : (sortedProduct l).isSum = false) :
    IsKey (Sorting.sort le l) where
  factors := forall_mem_sort h
  sorted := sort_sort l
  plain := by rwa [← sortedProduct_eq (atoms h)]

theorem exists_mul_of_two_factors (h : ∀ f ∈ l, f.isFactor = true) (two : 2 ≤ l.length) :
    ∃ a b, sortedProduct l = mul a b := by
  have length := (Sorting.sort_perm le l).length_eq
  rw [sortedProduct_eq (atoms h)]
  generalize Sorting.sort le l = m at length
  obtain rfl | ⟨before, last, rfl⟩ := List.eq_nil_or_concat' m
  · simp only [List.length_nil] at length
    omega
  · cases before with
    | nil =>
        simp only [List.length_append, List.length_nil, List.length_singleton] at length
        omega
    | cons first rest =>
        refine ⟨product (first :: rest), last, ?_⟩
        rw [List.cons_append, product, List.foldl_append]
        rfl

theorem isKey_sort_of_two (h : ∀ f ∈ l, f.isFactor = true) (two : 2 ≤ l.length) :
    IsKey (Sorting.sort le l) := by
  obtain ⟨a, b, shape⟩ := exists_mul_of_two_factors h two
  exact isKey_sort h (by rw [shape]; rfl)

theorem isKey_sort_of_mem (h : ∀ f ∈ l, f.isFactor = true) {f : Expr} (member : f ∈ l)
    (plain : f.isSum = false) : IsKey (Sorting.sort le l) := by
  by_cases two : 2 ≤ l.length
  · exact isKey_sort_of_two h two
  · have single : l.length = 1 := by
      have := List.length_pos_of_mem member
      omega
    obtain ⟨g, rfl⟩ := List.length_eq_one_iff.mp single
    obtain rfl := List.mem_singleton.mp member
    exact isKey_sort h (by rwa [sortedProduct_singleton (isAtomic_of_isFactor (h f member))])

namespace IsTerm

theorem sortedProduct_eq (h : IsTerm l) : sortedProduct l = product l := by
  rw [Expr.sortedProduct_eq h.atoms, h.sorted]

theorem likeTerm?_multiple (h : IsTerm l) (q_ne : q ≠ 0) : likeTerm? (multiple q l) = some (l, q) := by
  rw [likeTerm?, asMultiple_multiple h.toIsMonic q_ne]
  simp only [if_neg q_ne, factors_sortedProduct h.atoms, h.sorted]

theorem terms_product (h : IsTerm l) (negative : Bool) : (product l).termsWithSign negative =
    [if negative then (product l).negate else product l] := by
  have notSum := h.plain
  have notNeg : ∀ a, product l ≠ neg a := by
    intro a same
    have listed := factors_product h.atoms
    rw [same] at listed
    cases h.atoms (neg a) (listed ▸ List.mem_singleton_self _)
  cases shape : product l with
  | add a b => rw [shape] at notSum; cases notSum
  | sub a b => rw [shape] at notSum; cases notSum
  | neg a => exact absurd shape (notNeg a)
  | _ => rfl

/-- A multiple is one term of a sum. -/
theorem termsWithSign_multiple (h : IsTerm l) (q : Rat) (negative : Bool) :
    (multiple q l).termsWithSign negative = [multiple (if negative then -q else q) l] := by
  by_cases empty : l = []
  · rw [empty, multiple_nil, multiple_nil]
    cases negative <;> rfl
  by_cases vanishes : q = 0
  · rw [vanishes, neg_zero, ite_self]
    cases negative <;> rfl
  · have split := h.terms_product
    have opposite := negate_multiple h.toIsMonic (q := q)
    rw [← h.sortedProduct_eq] at split
    obtain ⟨rfl, same⟩ | ⟨rfl, same⟩ | ⟨-, -, same⟩ := multiple_cases h.toIsMonic vanishes empty
    · rw [same] at opposite ⊢
      rw [split, opposite]
      cases negative
      · rw [if_neg Bool.false_ne_true, if_neg Bool.false_ne_true, same]
      · rfl
    · rw [same] at opposite ⊢
      rw [termsWithSign, split]
      cases negative
      · rw [Bool.not_false, if_pos rfl, if_neg Bool.false_ne_true, same,
          negate_sortedProduct h.toIsMonic empty]
      · exact congrArg (fun e => [e]) opposite
    · rw [same] at opposite ⊢
      rw [termsWithSign, opposite]
      · cases negative
        · rw [if_neg Bool.false_ne_true, if_neg Bool.false_ne_true, same]
        · rfl
      all_goals nofun

theorem terms_multiple (h : IsTerm l) (q : Rat) : (multiple q l).terms = [multiple q l] :=
  h.termsWithSign_multiple q false

end IsTerm

/-- What each term of a sum adds to the like terms. -/
def amounts (e : Expr) : LikeTerms := e.terms.filterMap likeTerm?

/-- The sum that collects the given amounts. -/
def collected (A : LikeTerms) : Expr := ofLikeTerms (Tally.ofList cmpList A)

theorem plus_eq (a b : Expr) : a.plus b = collected (a.amounts ++ b.amounts) := by
  rw [amounts, amounts, ← List.filterMap_append]
  rfl

/-- The multiples of the same products, with the same weights in all, make the same sum. -/
def SameAmounts (A B : LikeTerms) : Prop :=
  ∀ w : List Expr → ℚ, weighted w A = weighted w B

theorem weighted_append (w : List Expr → ℚ) (A B : LikeTerms) :
    weighted w (A ++ B) = weighted w A + weighted w B := by
  simp [weighted]

theorem weighted_ofList (w : List Expr → ℚ) (A : LikeTerms) :
    weighted w (Tally.ofList cmpList A) = weighted w A := by
  induction A with
  | nil => rfl
  | cons entry rest ih =>
      rw [weighted_cons, ← ih]
      exact weighted_add w entry.1 entry.2 _

theorem weighted_withoutZeros (w : List Expr → ℚ) (A : LikeTerms) (test : List Expr × Rat → Bool) :
    weighted w (A.filter fun entry => test entry && entry.2 ≠ 0) = weighted w (A.filter test) := by
  induction A with
  | nil => rfl
  | cons entry rest ih =>
      by_cases passes : test entry = true
      · by_cases vanishes : entry.2 = 0
        · simp [passes, vanishes, ← ih]
        · simp [passes, vanishes, ← ih]
      · simp [passes, ← ih]

theorem total_eq_weighted (key : List Expr) (t : LikeTerms) (ascending : Ascending cmpList t) :
    total key t = weighted (fun l => if l = key then 1 else 0) t := by
  have rest : weighted (fun l => if l = key then (1 : ℚ) else 0)
      (t.filter fun entry => entry.1 ≠ key) = 0 := by
    apply List.sum_eq_zero
    intro x member
    obtain ⟨entry, kept, rfl⟩ := List.mem_map.mp member
    have := (List.mem_filter.mp kept).2
    simp_all
  rw [weighted_filter _ key ascending, rest, zero_add, if_pos rfl, mul_one, Rat.cast_id, total]

/-- A sum is written with its nonzero totals, so only these decide it. -/
theorem written_congr {t u : LikeTerms} (ascending : Ascending cmpList t)
    (ascending' : Ascending cmpList u) (same : SameAmounts t u) : t.written = u.written := by
  have nonzero : (t.filter fun entry => entry.2 ≠ 0) = u.filter fun entry => entry.2 ≠ 0 := by
    have ne (v : LikeTerms) : ∀ entry ∈ v.filter fun entry => entry.2 ≠ 0, entry.2 ≠ 0 := by
      intro entry member
      simpa using (List.mem_filter.mp member).2
    apply eq_of_total (List.Pairwise.filter _ ascending) (List.Pairwise.filter _ ascending')
      (ne t) (ne u)
    intro key
    rw [total_filter ascending, total_filter ascending', total_eq_weighted key t ascending,
      total_eq_weighted key u ascending', same]
  have constant : (Tally.find? [] t).getD 0 = (Tally.find? [] u).getD 0 := by
    change total [] t = total [] u
    rw [total_eq_weighted [] t ascending, total_eq_weighted [] u ascending', same]
  simp only [LikeTerms.written, ← List.filter_filter, nonzero, constant]

theorem terms_foldl_add (l : List Expr) (a : Expr) :
    (l.foldl add a).terms = a.terms ++ l.flatMap terms := by
  induction l generalizing a with
  | nil => exact (List.append_nil _).symm
  | cons b rest ih =>
      rw [List.foldl_cons, ih, List.flatMap_cons, ← List.append_assoc]
      rfl

/-- A list of amounts, each of a product that a sum keeps. -/
def Terms (A : LikeTerms) : Prop := ∀ entry ∈ A, IsTerm entry.1

theorem Terms.append (h : Terms A) (k : Terms B) : Terms (A ++ B) :=
  List.forall_mem_append.mpr ⟨h, k⟩

/-- A list of amounts, each of a product that sums and products keep. -/
def Keyed (A : LikeTerms) : Prop := ∀ entry ∈ A, IsKey entry.1

theorem Keyed.terms (keys : Keyed A) : Terms A := fun entry member => (keys entry member).toIsTerm

theorem Keyed.append (h : Keyed A) (k : Keyed B) : Keyed (A ++ B) :=
  List.forall_mem_append.mpr ⟨h, k⟩

/-- The amounts that a sum of multiples is made of can be read off again. -/
theorem amounts_sum (keys : Terms A) (nonzero : ∀ entry ∈ A, entry.2 ≠ 0) :
    (sum (A.map fun entry => multiple entry.2 entry.1)).amounts = A := by
  have single (entry : List Expr × Rat) (key : IsTerm entry.1) (ne : entry.2 ≠ 0) :
      (multiple entry.2 entry.1).terms.filterMap likeTerm? = [entry] := by
    rw [key.terms_multiple, List.filterMap_cons, key.likeTerm?_multiple ne]
    rfl
  have listed (B : LikeTerms) (keys : Terms B) (nonzero : ∀ entry ∈ B, entry.2 ≠ 0) :
      ((B.map fun entry => multiple entry.2 entry.1).flatMap terms).filterMap likeTerm? = B := by
    induction B with
    | nil => rfl
    | cons entry rest ih =>
        obtain ⟨first, others⟩ := List.forall_mem_cons.mp keys
        obtain ⟨ne, nonzero⟩ := List.forall_mem_cons.mp nonzero
        rw [List.map_cons, List.flatMap_cons, List.filterMap_append, single entry first ne,
          ih others nonzero]
        rfl
  cases A with
  | nil => rfl
  | cons entry rest =>
      rw [amounts, List.map_cons, sum, terms_foldl_add, ← List.flatMap_cons,
        ← List.map_cons (f := fun entry : List Expr × Rat => multiple entry.2 entry.1)]
      exact listed _ keys nonzero

/-- The multiples of proper products that a sum is written with, in their order. -/
def properTerms (A : LikeTerms) : LikeTerms :=
  (Tally.ofList cmpList A).filter fun entry => !entry.1.isEmpty && entry.2 ≠ 0

/-- The number that a sum is written with behind them. -/
def constantTerm (A : LikeTerms) : Rat := (Tally.find? [] (Tally.ofList cmpList A)).getD 0

/-- The multiples that a sum is written with. -/
def writtenTerms (A : LikeTerms) : LikeTerms :=
  if constantTerm A = 0 then properTerms A else properTerms A ++ [([], constantTerm A)]

theorem of_mem_properTerms {entry : List Expr × Rat} (member : entry ∈ properTerms A) :
    entry.1 ≠ [] ∧ entry.2 ≠ 0 ∧ ∃ q, (entry.1, q) ∈ A := by
  obtain ⟨inside, kept⟩ := List.mem_filter.mp member
  have kept : entry.1 ≠ [] ∧ entry.2 ≠ 0 := by simpa using kept
  exact ⟨kept.1, kept.2, key_of_mem_ofList inside⟩

theorem constant_listed (ne : constantTerm A ≠ 0) : ∃ q, ([], q) ∈ A := by
  rw [constantTerm] at ne
  cases found : Tally.find? [] (Tally.ofList cmpList A) with
  | none => rw [found] at ne; exact absurd rfl ne
  | some q => exact key_of_mem_ofList (mem_of_find? found)

/-- They are nonzero multiples of the given products. -/
theorem of_mem_writtenTerms {entry : List Expr × Rat} (member : entry ∈ writtenTerms A) :
    entry.2 ≠ 0 ∧ ∃ q, (entry.1, q) ∈ A := by
  rw [writtenTerms] at member
  split at member
  next => exact (of_mem_properTerms member).2
  next ne =>
    rcases List.mem_append.mp member with proper | last
    · exact (of_mem_properTerms proper).2
    · obtain rfl := List.mem_singleton.mp last
      exact ⟨ne, constant_listed ne⟩

/-- They have the weights of what was collected. -/
theorem sameAmounts_writtenTerms (A : LikeTerms) : SameAmounts (writtenTerms A) A := by
  intro w
  have ascending : Ascending cmpList (Tally.ofList cmpList A) := ofList_ascending A
  have split := weighted_filter w [] ascending
  have proper : weighted w (properTerms A) =
      weighted w ((Tally.ofList cmpList A).filter fun entry => entry.1 ≠ []) := by
    rw [properTerms, weighted_withoutZeros]
    congr 2
    funext entry
    cases entry.1 <;> rfl
  rw [weighted_ofList, Rat.cast_id, ← proper] at split
  rw [split, writtenTerms]
  split
  next vanishes =>
    rw [constantTerm] at vanishes
    rw [vanishes, zero_mul, add_zero]
  next => simp [weighted_append, constantTerm]

section Collected
variable (keys : Terms A)
include keys

theorem Terms.ofList : Terms (Tally.ofList cmpList A) := by
  intro entry member
  obtain ⟨q, listed⟩ := key_of_mem_ofList member
  exact keys (entry.1, q) listed

/-- No infinite and no indeterminate term is among the products. -/
theorem collected_eq_sum : collected A = sum (LikeTerms.written (Tally.ofList cmpList A)) := by
  have missing (l : List Expr) (notTerm : ¬IsTerm l) :
      Tally.find? l (Tally.ofList cmpList A) = none := by
    cases found : Tally.find? l (Tally.ofList cmpList A) with
    | none => rfl
    | some q => exact absurd (keys.ofList _ (mem_of_find? found)) notTerm
  have noUndefined := missing [undefined] fun term => term.defined rfl
  have noInfinity := missing [infinity] fun term => term.finite rfl
  simp [collected, ofLikeTerms, noUndefined, noInfinity]

/-- Amounts in the order of their products are listed as they are. -/
theorem collected_of_ascending (ascending : Ascending cmpList A) (nonzero : ∀ entry ∈ A, entry.2 ≠ 0)
    (proper : ∀ entry ∈ A, entry.1 ≠ []) :
    collected A = sum (A.map fun entry => multiple entry.2 entry.1) := by
  have noConstant : (Tally.find? [] A).getD 0 = 0 := total_eq_zero proper
  have all : (A.filter fun entry => !entry.1.isEmpty && entry.2 ≠ 0) = A := by
    apply List.filter_eq_self.mpr
    intro entry member
    simp [nonzero entry member, proper entry member]
  rw [collected_eq_sum keys, ofList_of_ascending ascending, LikeTerms.written, all]
  dsimp only
  rw [if_pos noConstant]
  congr 1
  apply List.map_congr_left
  intro entry member
  rw [multiple, (keys entry member).sortedProduct_eq]

theorem collected_congr (keys' : Terms B) (same : SameAmounts A B) : collected A = collected B := by
  rw [collected_eq_sum keys, collected_eq_sum keys']
  congr 1
  apply written_congr (ofList_ascending A) (ofList_ascending B)
  intro w
  rw [weighted_ofList, weighted_ofList, same]

theorem Terms.writtenTerms : Terms (writtenTerms A) := by
  intro entry member
  obtain ⟨q, listed⟩ := (of_mem_writtenTerms member).2
  exact keys (entry.1, q) listed

theorem collected_eq_writtenTerms :
    collected A = sum ((writtenTerms A).map fun entry => multiple entry.2 entry.1) := by
  have proper : (properTerms A).map (fun entry => scaled entry.2 (product entry.1)) =
      (properTerms A).map fun entry => multiple entry.2 entry.1 := by
    apply List.map_congr_left
    intro entry member
    obtain ⟨q, listed⟩ := (of_mem_properTerms member).2.2
    rw [multiple, (keys (entry.1, q) listed).sortedProduct_eq]
  rw [collected_eq_sum keys, LikeTerms.written, writtenTerms]
  change sum (if constantTerm A = 0 then (properTerms A).map _
    else (properTerms A).map _ ++ [const (constantTerm A)]) = _
  rw [proper]
  split
  next => rfl
  next => rw [List.map_append, List.map_singleton, multiple_nil]

/-- What is written up to any of the terms is the sum of these. -/
theorem collected_of_prefix (early : B <+: writtenTerms A) :
    collected B = sum (B.map fun entry => multiple entry.2 entry.1) := by
  have initial (early : B <+: properTerms A) :
      collected B = sum (B.map fun entry => multiple entry.2 entry.1) := by
    have inside {entry : List Expr × Rat} (member : entry ∈ B) := of_mem_properTerms (early.subset member)
    apply collected_of_ascending
    · intro entry member
      obtain ⟨q, listed⟩ := (inside member).2.2
      exact keys (entry.1, q) listed
    · exact (List.Pairwise.filter _ (ofList_ascending A)).sublist early.sublist
    · exact fun entry member => (inside member).2.1
    · exact fun entry member => (inside member).1
  by_cases whole : B = writtenTerms A
  · rw [whole, ← collected_eq_writtenTerms keys]
    exact collected_congr keys.writtenTerms keys (sameAmounts_writtenTerms A)
  · rw [writtenTerms] at early whole
    split at early
    next => exact initial early
    next ne =>
      rw [if_neg ne] at whole
      exact initial ((List.prefix_concat_iff.mp early).resolve_left whole)

theorem collected_amounts : Terms (collected A).amounts ∧ SameAmounts (collected A).amounts A := by
  have nonzero : ∀ entry ∈ writtenTerms A, entry.2 ≠ 0 := fun entry member => (of_mem_writtenTerms member).1
  rw [collected_eq_writtenTerms keys, amounts_sum keys.writtenTerms nonzero]
  exact ⟨keys.writtenTerms, sameAmounts_writtenTerms A⟩

theorem collected_plus (keys' : Terms B) :
    (collected A).plus (collected B) = collected (A ++ B) := by
  obtain ⟨left, sameLeft⟩ := collected_amounts keys
  obtain ⟨right, sameRight⟩ := collected_amounts keys'
  rw [plus_eq]
  apply collected_congr (left.append right) (keys.append keys')
  intro w
  rw [weighted_append, weighted_append, sameLeft, sameRight]

end Collected

@[simp] theorem collected_nil : collected [] = zero := rfl

theorem IsTerm.multiple_eq (h : IsTerm l) (q : Rat) : multiple q l = collected [(l, q)] := by
  have product : scaled q (product l) = multiple q l := by rw [multiple, h.sortedProduct_eq]
  rw [collected_eq_sum (List.forall_mem_singleton.mpr h)]
  by_cases vanishes : q = 0
  · subst vanishes
    by_cases empty : l = [] <;>
      simp [Tally.ofList, Tally.add, LikeTerms.written, Tally.find?, empty, sum, zero]
  · by_cases empty : l = []
    · subst empty
      simp [Tally.ofList, Tally.add, LikeTerms.written, Tally.find?, vanishes, sum]
    · simp [Tally.ofList, Tally.add, LikeTerms.written, Tally.find?, vanishes, empty, sum, product]

theorem sum_concat {l : List Expr} (some_term : l ≠ []) (a : Expr) :
    sum (l ++ [a]) = add (sum l) a := by
  cases l with
  | nil => exact absurd rfl some_term
  | cons first rest =>
      rw [List.cons_append, sum, List.foldl_append]
      rfl

/-- Sums as they are written: each further multiple belongs behind those before it. -/
inductive SumOf (key : List Expr → Prop) : Expr → Prop where
  | zero : SumOf key zero
  | multiple {l : List Expr} {q : Rat} (proper : key l) (q_ne : q ≠ 0) : SumOf key (multiple q l)
  | add {a : Expr} {l : List Expr} {q : Rat} (initial : SumOf key a) (proper : key l) (q_ne : q ≠ 0)
      (last : a.plus (Expr.multiple q l) = .add a (Expr.multiple q l)) :
      SumOf key (.add a (Expr.multiple q l))

theorem SumOf.imp {K L : List Expr → Prop} (h : ∀ l, K l → L l) (written : SumOf K e) : SumOf L e := by
  induction written with
  | zero => exact .zero
  | multiple proper q_ne => exact .multiple (h _ proper) q_ne
  | add _ proper q_ne last ih => exact .add ih (h _ proper) q_ne last

theorem sumOf_collected (keys : Terms A) : SumOf (fun l => ∃ r, (l, r) ∈ A) (collected A) := by
  have upTo : ∀ V, V <+: writtenTerms A →
      SumOf (fun l => ∃ r, (l, r) ∈ A) (sum (V.map fun entry => multiple entry.2 entry.1)) := by
    intro V early
    induction V using List.reverseRecOn with
    | nil => exact .zero
    | append_singleton V entry ih =>
        have before : V <+: writtenTerms A := (List.prefix_append V [entry]).trans early
        have member : entry ∈ writtenTerms A := early.subset (by simp)
        obtain ⟨nonzero, listed⟩ := of_mem_writtenTerms member
        have key := keys.writtenTerms entry member
        rw [List.map_append, List.map_singleton]
        by_cases first : V = []
        · subst first
          exact .multiple listed nonzero
        · have keyedBefore : Terms V := fun entry member => keys.writtenTerms entry (before.subset member)
          rw [sum_concat (by simpa using first)]
          refine .add (ih before) listed nonzero ?_
          rw [← sum_concat (by simpa using first), ← collected_of_prefix keys before, key.multiple_eq,
            collected_plus keyedBefore (List.forall_mem_singleton.mpr key), ← key.multiple_eq]
          have whole := collected_of_prefix keys early
          rwa [List.map_append, List.map_singleton] at whole
  rw [collected_eq_writtenTerms keys]
  exact upTo _ List.prefix_rfl

/-- The amounts of the opposite sum. -/
def LikeTerms.opposite (A : LikeTerms) : LikeTerms := A.map fun entry => (entry.1, -entry.2)

theorem Terms.opposite (keys : Terms A) : Terms A.opposite := List.forall_mem_map.mpr keys

theorem weighted_opposite (w : List Expr → ℚ) (A : LikeTerms) :
    weighted w A.opposite = -weighted w A := by
  induction A with
  | nil => exact neg_zero.symm
  | cons entry rest ih =>
      have split : LikeTerms.opposite (entry :: rest) = (entry.1, -entry.2) :: LikeTerms.opposite rest := rfl
      rw [split, weighted_cons, ih, weighted_cons, Rat.cast_id, Rat.cast_id]
      ring

/-- A sign in front of a sum is that of each of its terms. -/
theorem SumOf.amounts_neg {K : List Expr → Prop} (h : SumOf K e) (keys : ∀ l, K l → IsTerm l) :
    (neg e).amounts = e.amounts.opposite := by
  have single {l : List Expr} {q : Rat} (proper : K l) (q_ne : q ≠ 0) :
      ((Expr.multiple q l).termsWithSign true).filterMap likeTerm? =
        LikeTerms.opposite (((Expr.multiple q l).termsWithSign false).filterMap likeTerm?) := by
    have key := keys l proper
    rw [key.termsWithSign_multiple, key.termsWithSign_multiple, if_pos rfl, if_neg Bool.false_ne_true,
      List.filterMap_cons, List.filterMap_cons, key.likeTerm?_multiple q_ne,
      key.likeTerm?_multiple (neg_ne_zero.mpr q_ne)]
    rfl
  change (e.termsWithSign true).filterMap likeTerm? =
    LikeTerms.opposite ((e.termsWithSign false).filterMap likeTerm?)
  induction h with
  | zero => rfl
  | multiple proper q_ne => exact single proper q_ne
  | add _ proper q_ne _ ih =>
      rw [termsWithSign, termsWithSign, List.filterMap_append, List.filterMap_append, ih,
        single proper q_ne, LikeTerms.opposite, LikeTerms.opposite, LikeTerms.opposite, List.map_append]

/-- The terms of such a sum, with either sign in front, are multiples of its products. -/
theorem SumOf.multiple_of_mem_terms {K : List Expr → Prop} (h : SumOf K e) (keys : ∀ l, K l → IsTerm l)
    {negative : Bool} {t : Expr} (member : t ∈ e.termsWithSign negative) :
    t = Expr.zero ∨ ∃ l q, K l ∧ t = Expr.multiple q l := by
  have single {l : List Expr} {q : Rat} (proper : K l)
      (member : t ∈ (Expr.multiple q l).termsWithSign negative) : ∃ l q, K l ∧ t = Expr.multiple q l := by
    rw [(keys l proper).termsWithSign_multiple, List.mem_singleton] at member
    exact ⟨l, _, proper, member⟩
  induction h with
  | zero =>
      obtain rfl := List.mem_singleton.mp member
      cases negative <;> exact .inl rfl
  | multiple proper _ => exact .inr (single proper member)
  | add _ proper _ _ ih =>
      rcases List.mem_append.mp member with inside | last
      · exact ih inside
      · exact .inr (single proper last)

/-- The amounts of such a sum, with either sign in front, are amounts of its products. -/
theorem SumOf.key_of_mem_amounts {K : List Expr → Prop} (h : SumOf K e) (keys : ∀ l, K l → IsTerm l) :
    ∀ entry ∈ e.amounts, K entry.1 := by
  intro entry member
  obtain ⟨t, inside, found⟩ := List.mem_filterMap.mp member
  rcases h.multiple_of_mem_terms keys inside with rfl | ⟨l, q, proper, rfl⟩
  · cases found
  · by_cases q_ne : q = 0
    · rw [q_ne] at found
      cases found
    · rw [(keys l proper).likeTerm?_multiple q_ne, Option.some_inj] at found
      rwa [← found]

theorem neg_collected_amounts (keys : Terms A) :
    Terms (neg (collected A)).amounts ∧ SameAmounts (neg (collected A)).amounts A.opposite := by
  obtain ⟨terms, same⟩ := collected_amounts keys
  have opposite : (neg (collected A)).amounts = (collected A).amounts.opposite := by
    refine (sumOf_collected keys).amounts_neg ?_
    rintro l ⟨r, listed⟩
    exact keys _ listed
  rw [opposite]
  refine ⟨terms.opposite, fun w => ?_⟩
  rw [weighted_opposite, weighted_opposite, same]

/-- A function that turns the nodes of a sum into additions collects what it makes of
the terms. It may do so for some sums only, if for those that these begin with. -/
theorem collected_foldl_add {P : Expr → Prop} {g : Expr → Expr} {t : α → Expr}
    {G : α → LikeTerms} {L : List α}
    (additive : ∀ a b, P (add a b) → g (add a b) = (g a).plus (g b))
    (initial : ∀ a b, P (add a b) → P a) (keyed : ∀ i ∈ L, Keyed (G i))
    (terms : ∀ i ∈ L, g (t i) = collected (G i)) (keys : Keyed A) (start : g e = collected A)
    (whole : P ((L.map t).foldl add e)) :
    g ((L.map t).foldl add e) = collected (A ++ L.flatMap G) := by
  have up_to (l : List Expr) (e : Expr) : P (l.foldl add e) → P e := by
    induction l generalizing e with
    | nil => exact id
    | cons a rest ih => exact fun whole => initial e a (ih (add e a) whole)
  induction L generalizing e A with
  | nil => simpa using start
  | cons i rest ih =>
      obtain ⟨first, others⟩ := List.forall_mem_cons.mp terms
      obtain ⟨keyFirst, keyOthers⟩ := List.forall_mem_cons.mp keyed
      have added : g (add e (t i)) = collected (A ++ G i) := by
        rw [additive e (t i) (up_to _ _ whole), start, first, collected_plus keys.terms keyFirst.terms]
      rw [List.map_cons, List.foldl_cons, ih keyOthers others (keys.append keyFirst) added whole,
        List.flatMap_cons, List.append_assoc]

theorem collected_sum {P : Expr → Prop} {g : Expr → Expr} {t : α → Expr} {G : α → LikeTerms}
    {L : List α} (additive : ∀ a b, P (add a b) → g (add a b) = (g a).plus (g b))
    (initial : ∀ a b, P (add a b) → P a) (vanishing : g zero = zero)
    (keyed : ∀ i ∈ L, Keyed (G i)) (terms : ∀ i ∈ L, g (t i) = collected (G i))
    (whole : P (sum (L.map t))) : g (sum (L.map t)) = collected (L.flatMap G) := by
  cases L with
  | nil => exact vanishing
  | cons i rest =>
      obtain ⟨first, others⟩ := List.forall_mem_cons.mp terms
      obtain ⟨keyFirst, keyOthers⟩ := List.forall_mem_cons.mp keyed
      exact collected_foldl_add additive initial keyOthers others keyFirst first whole

/-- Each product is replaced by a sum of products. -/
def substituted (F : List Expr → LikeTerms) (A : LikeTerms) : LikeTerms :=
  A.flatMap fun entry => (F entry.1).map fun part => (part.1, entry.2 * part.2)

theorem weighted_substituted (F : List Expr → LikeTerms) (A : LikeTerms) (w : List Expr → ℚ) :
    weighted w (substituted F A) = weighted (fun l => weighted w (F l)) A := by
  have scaled (q : ℚ) (B : LikeTerms) :
      weighted w (B.map fun part => (part.1, q * part.2)) = q * weighted w B := by
    induction B with
    | nil => simp
    | cons part rest ih =>
        rw [List.map_cons, weighted_cons, weighted_cons, ih, Rat.cast_id, Rat.cast_id]
        ring
  induction A with
  | nil => rfl
  | cons entry rest ih =>
      rw [weighted_cons, ← ih, ← scaled, Rat.cast_id, ← weighted_append]
      rfl

theorem Keyed.substituted {F : List Expr → LikeTerms} (h : ∀ entry ∈ A, Keyed (F entry.1)) :
    Keyed (substituted F A) := by
  intro part member
  obtain ⟨entry, listed, inside⟩ := List.mem_flatMap.mp member
  obtain ⟨piece, present, rfl⟩ := List.mem_map.mp inside
  exact h entry listed piece present

/-- What such a function makes of the multiples of products decides what it makes of
the sums that collect them. -/
theorem map_collected {P : Expr → Prop} {g : Expr → Expr} {F : List Expr → LikeTerms}
    (keys : Keyed A) (additive : ∀ a b, P (add a b) → g (add a b) = (g a).plus (g b))
    (initial : ∀ a b, P (add a b) → P a) (vanishing : g zero = zero)
    (keyed : ∀ entry ∈ A, Keyed (F entry.1))
    (multiples : ∀ entry ∈ A, ∀ q ≠ 0,
      g (multiple q entry.1) = collected (substituted F [(entry.1, q)]))
    (whole : P (collected A)) : g (collected A) = collected (substituted F A) := by
  have keyed' : ∀ entry ∈ writtenTerms A, Keyed (F entry.1) := by
    intro entry member
    obtain ⟨-, q, listed⟩ := of_mem_writtenTerms member
    exact keyed (entry.1, q) listed
  have terms : ∀ entry ∈ writtenTerms A,
      g (multiple entry.2 entry.1) = collected (substituted F [entry]) := by
    intro entry member
    obtain ⟨nonzero, q, listed⟩ := of_mem_writtenTerms member
    exact multiples (entry.1, q) listed entry.2 nonzero
  have keys' : ∀ entry ∈ writtenTerms A, Keyed (substituted F [entry]) := by
    intro entry member
    exact Keyed.substituted (List.forall_mem_singleton.mpr (keyed' entry member))
  rw [collected_eq_writtenTerms keys.terms] at whole ⊢
  rw [collected_sum additive initial vanishing keys' terms whole]
  apply collected_congr (List.forall_mem_flatMap.mpr fun entry member => (keys' entry member).terms)
    (Keyed.substituted keyed).terms
  intro w
  have joined : ((writtenTerms A).flatMap fun entry => substituted F [entry]) =
      substituted F (writtenTerms A) := by
    simp [substituted]
  rw [joined, weighted_substituted, weighted_substituted, sameAmounts_writtenTerms]

/-- A function that keeps the multiples of the products keeps their sum. -/
theorem collected_fixed {g : Expr → Expr} (keys : Terms A)
    (additive : ∀ a b, g (add a b) = (g a).plus (g b)) (vanishing : g zero = zero)
    (multiples : ∀ entry ∈ A, ∀ q ≠ 0, g (multiple q entry.1) = multiple q entry.1) :
    g (collected A) = collected A := by
  have written := sumOf_collected keys
  generalize collected A = e at written
  induction written with
  | zero => exact vanishing
  | multiple proper q_ne =>
      obtain ⟨r, listed⟩ := proper
      exact multiples _ listed _ q_ne
  | add _ proper q_ne last ih =>
      obtain ⟨r, listed⟩ := proper
      rw [additive, ih, multiples _ listed _ q_ne, last]

end SymbolicAlgebra.Expr
