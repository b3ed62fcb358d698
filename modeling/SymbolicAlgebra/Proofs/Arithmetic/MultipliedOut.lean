import SymbolicAlgebra.Proofs.Arithmetic.Commutation
import SymbolicAlgebra.Proofs.Arithmetic.PowerProduct
import SymbolicAlgebra.Proofs.Expr.Parts

/-! Polynomial expressions in any number of symbols, multiplied out. What is left is a sum of
multiples of power products, or the opposite of one. The opposite of a sum is no sum to
products, so they do not take it apart: it must not meet more than a sign. -/

namespace SymbolicAlgebra.Expr
open Tally

variable {a b e f s t : Expr} {l : List Expr} {A B : LikeTerms} {q : Rat}

/-- Built from symbols and numbers by sums, differences, products and signs. -/
def isPolynomial : Expr → Bool
  | var _ | const _ => true
  | add a b | sub a b | mul a b => a.isPolynomial && b.isPolynomial
  | neg a => a.isPolynomial
  | _ => false

def isNegatedSum : Expr → Bool
  | neg a => a.isSum
  | _ => false

/-- A number that keeps, turns or takes away what it multiplies. -/
def isSign : Expr → Bool
  | const q => q = 0 || q = 1 || q = -1
  | _ => false

/-- No factor of a term is a sum or the opposite of one, also behind the coefficient of the
term. -/
def HasNoSumFactor (e : Expr) : Prop :=
  ∀ t ∈ e.terms, ∀ f ∈ t.factors ++ t.asMultiple.2.factors, f.isSum = false ∧ f.isNegatedSum = false

/-- No product has too many terms when its operands are multiplied out. -/
def ProductsFit (e : Expr) : Prop :=
  ∀ a b, mul a b ∈ e.parts → a.expand.termCount * b.expand.termCount ≤ expansionLimit

/-- No operand of a product comes to the opposite of a sum, unless the other is a sign. -/
def NegatedSumsStandApart (e : Expr) : Prop :=
  ∀ a b, mul a b ∈ e.parts → (a.expand.isNegatedSum = true → b.expand.isSign = true) ∧
    (b.expand.isNegatedSum = true → a.expand.isSign = true)

/-- Sums of multiples of power products, with or without a sign in front. -/
inductive IsMultipliedOut : Expr → Prop where
  | collected {A : LikeTerms} (products : ∀ entry ∈ A, IsPowerProduct entry.1) :
      IsMultipliedOut (collected A)
  | opposite {A : LikeTerms} (products : ∀ entry ∈ A, IsPowerProduct entry.1)
      (sum : (Expr.collected A).isSum = true) : IsMultipliedOut (neg (Expr.collected A))

theorem keyed_powerProducts (products : ∀ entry ∈ A, IsPowerProduct entry.1) : Keyed A :=
  fun entry member => (products entry member).isKey

theorem sumOf_powerProducts (products : ∀ entry ∈ A, IsPowerProduct entry.1) :
    SumOf IsPowerProduct (collected A) := by
  refine (sumOf_collected (keyed_powerProducts products).terms).imp ?_
  rintro l ⟨r, listed⟩
  exact products _ listed

theorem isMultipliedOut_multiple (h : IsPowerProduct l) (q : Rat) : IsMultipliedOut (multiple q l) := by
  rw [h.isKey.multiple_eq]
  exact .collected (List.forall_mem_singleton.mpr h)

/-- Equal amounts under different products, none of them zero. -/
theorem exists_canonical (products : ∀ entry ∈ A, IsPowerProduct entry.1) :
    ∃ B : LikeTerms, collected A = collected B ∧ (∀ entry ∈ B, IsPowerProduct entry.1) ∧
      (B.map Prod.fst).Nodup ∧ ∀ entry ∈ B, entry.2 ≠ 0 := by
  have ascending : Ascending cmpList (Tally.ofList cmpList A) := ofList_ascending A
  let B := (Tally.ofList cmpList A).filter fun entry => true && entry.2 ≠ 0
  have products' : ∀ entry ∈ B, IsPowerProduct entry.1 := by
    intro entry member
    obtain ⟨r, listed⟩ := key_of_mem_ofList (List.mem_filter.mp member).1
    exact products (entry.1, r) listed
  refine ⟨B, ?_, products', ?_, ?_⟩
  · apply collected_congr (keyed_powerProducts products).terms (keyed_powerProducts products').terms
    intro w
    rw [weighted_withoutZeros, List.filter_true, weighted_ofList]
  · rw [List.Nodup, List.pairwise_map]
    exact (List.Pairwise.filter _ ascending).imp ne_of_cmp_lt
  · intro entry member
    simpa using (List.mem_filter.mp member).2

theorem isMultipliedOut_expandTimes (products : ∀ entry ∈ A, IsPowerProduct entry.1)
    (products' : ∀ entry ∈ B, IsPowerProduct entry.1)
    (few : (collected A).termCount * (collected B).termCount ≤ expansionLimit) :
    IsMultipliedOut (expandTimes (collected A) (collected B)) := by
  have few_left := (Nat.le_mul_of_pos_right _ (collected B).termCount_pos).trans few
  obtain ⟨C, same, products'', distinct, nonzero⟩ := exists_canonical products'
  rw [same] at few ⊢
  by_cases empty : C = []
  · rw [empty, collected_nil, expandTimes_zero (keyed_powerProducts products) few_left]
    exact .collected (A := []) (List.forall_mem_nil _)
  · have joins : ∀ t ∈ C, Joins (fun l => joined l t.1) A t.1 :=
      fun t member => joins_powerProducts products (products'' t member)
    have joins' : ∀ s ∈ A, Joins (fun m => joined s.1 m) C s.1 := by
      intro s member
      have swapped : (fun m => joined s.1 m) = fun m => joined m s.1 := funext (joined_comm s.1)
      rw [swapped]
      exact joins_powerProducts products'' (products s member)
    rw [expandTimes_distributed (keyed_powerProducts products) (keyed_powerProducts products'')
      joins joins' (fun entry member => (products entry member).noDivisor)
      (fun entry member => (products'' entry member).noDivisor) distinct nonzero empty few]
    apply IsMultipliedOut.collected
    intro entry member
    obtain ⟨s, inside, later⟩ := List.mem_flatMap.mp member
    obtain ⟨t, inside', rfl⟩ := List.mem_map.mp later
    exact isPowerProduct_joined (products s inside) (products'' t inside')

/-- The opposite of a sum times a number is a number times the sum. -/
theorem negatedSum_times_const (sum : s.isSum = true) (c : Rat) :
    (neg s).times (const c) = multiple (-c) [s] := by
  have base := isBase_of_isSum sum
  have factor := isFactor_of_isBase base
  have alone : Independent ([s] ++ []) :=
    ⟨List.forall_mem_singleton.mpr (isPower_of_isBase base), List.nodup_singleton _⟩
  have opposite : multiple (-1) [s] = neg s := by
    rw [← negate_multiple (isMonic (List.forall_mem_singleton.mpr factor)),
      multiple_one_singleton factor, negate_of_isFactor factor]
  have product := times_independent (q := -1) (r := c) alone (by
    rw [opposite, multiple_nil]
    exact ⟨nofun, nofun⟩)
  rwa [opposite, multiple_nil, neg_one_mul] at product

namespace IsMultipliedOut

theorem negate (h : IsMultipliedOut e) : IsMultipliedOut e.negate := by
  cases h with
  | opposite products sum => exact .collected products
  | @collected A products =>
      have written := sumOf_powerProducts products
      cases sum : (Expr.collected A).isSum with
      | true =>
          rw [negate_of_isFactor (isFactor_of_isBase (isBase_of_isSum sum))]
          exact .opposite products sum
      | false =>
          generalize Expr.collected A = e at written sum
          cases written with
          | zero => exact isMultipliedOut_multiple isPowerProduct_nil 0
          | multiple proper _ =>
              rw [negate_multiple proper.isKey.toIsMonic]
              exact isMultipliedOut_multiple proper _
          | add => cases sum

theorem amounts (h : IsMultipliedOut e) : ∀ entry ∈ e.amounts, IsPowerProduct entry.1 := by
  have keys (l : List Expr) (h : IsPowerProduct l) : IsTerm l := h.isKey.toIsTerm
  cases h with
  | collected products => exact (sumOf_powerProducts products).key_of_mem_amounts keys
  | opposite products =>
      rw [(sumOf_powerProducts products).amounts_neg keys]
      exact List.forall_mem_map.mpr ((sumOf_powerProducts products).key_of_mem_amounts keys)

theorem plus (h : IsMultipliedOut a) (k : IsMultipliedOut b) : IsMultipliedOut (a.plus b) := by
  rw [plus_eq]
  exact .collected (List.forall_mem_append.mpr ⟨h.amounts, k.amounts⟩)

theorem terms (h : IsMultipliedOut e) (member : t ∈ e.terms) :
    ∃ l q, IsPowerProduct l ∧ t = multiple q l := by
  have listed {A : LikeTerms} (products : ∀ entry ∈ A, IsPowerProduct entry.1) (negative : Bool)
      (member : t ∈ (Expr.collected A).termsWithSign negative) :
      ∃ l q, IsPowerProduct l ∧ t = multiple q l := by
    have keys (l : List Expr) (h : IsPowerProduct l) : IsTerm l := h.isKey.toIsTerm
    rcases (sumOf_powerProducts products).multiple_of_mem_terms keys member with rfl | found
    · exact ⟨[], 0, isPowerProduct_nil, rfl⟩
    · exact found
  cases h with
  | collected products => exact listed products false member
  | opposite products => exact listed products true member

/-- A sign takes the opposite of a sum away, keeps it or turns it into the sum. -/
theorem opposite_times_sign (products : ∀ entry ∈ A, IsPowerProduct entry.1)
    (sum : (Expr.collected A).isSum = true) (sign : b.isSign = true) :
    IsMultipliedOut ((neg (Expr.collected A)).times b) := by
  cases b with
  | const c =>
      have factor := isFactor_of_isBase (isBase_of_isSum sum)
      have single := multiple_one_singleton factor
      rw [negatedSum_times_const sum]
      obtain (rfl | rfl) | rfl : (c = 0 ∨ c = 1) ∨ c = -1 := by simpa [isSign] using sign
      · exact isMultipliedOut_multiple isPowerProduct_nil 0
      · rw [← negate_multiple (isMonic (List.forall_mem_singleton.mpr factor)), single]
        exact (IsMultipliedOut.collected products).negate
      · rw [neg_neg, single]
        exact .collected products
  | _ => cases sign

theorem expandTimes (h : IsMultipliedOut a) (k : IsMultipliedOut b)
    (few : a.termCount * b.termCount ≤ expansionLimit)
    (apart : (a.isNegatedSum = true → b.isSign = true) ∧ (b.isNegatedSum = true → a.isSign = true)) :
    IsMultipliedOut (expandTimes a b) := by
  have notSum {e : Expr} (sign : e.isSign = true) : e.isSum = false := by
    cases e <;> first | rfl | cases sign
  cases h with
  | opposite products sum =>
      have sign := apart.1 sum
      rw [expandTimes_of_not_sum rfl (notSum sign)]
      exact opposite_times_sign products sum sign
  | collected products =>
      cases k with
      | collected products' => exact isMultipliedOut_expandTimes products products' few
      | opposite products' sum =>
          have sign := apart.2 sum
          rw [expandTimes_of_not_sum (notSum sign) rfl, times_comm]
          exact opposite_times_sign products' sum sign

end IsMultipliedOut

theorem ProductsFit.mono (h : ProductsFit e) (inside : ∀ x ∈ a.parts, x ∈ e.parts) : ProductsFit a :=
  fun b c member => h b c (inside _ member)

theorem NegatedSumsStandApart.mono (h : NegatedSumsStandApart e) (inside : ∀ x ∈ a.parts, x ∈ e.parts) :
    NegatedSumsStandApart a := fun b c member => h b c (inside _ member)

theorem isMultipliedOut_expand (h : e.isPolynomial = true) (fit : ProductsFit e)
    (apart : NegatedSumsStandApart e) : IsMultipliedOut e.expand := by
  induction e with
  | var name =>
      have symbol : IsSymbolPower (var name) := ⟨name, 1, one_pos, powers_one _⟩
      have alone : IsPowerProduct [var name] :=
        ⟨List.forall_mem_singleton.mpr symbol, List.nodup_singleton _, rfl⟩
      rw [expand, ← multiple_one_singleton (f := var name) rfl]
      · exact isMultipliedOut_multiple alone 1
      all_goals nofun
  | const c =>
      rw [expand, ← multiple_nil c]
      · exact isMultipliedOut_multiple isPowerProduct_nil c
      all_goals nofun
  | add a b iha ihb =>
      obtain ⟨left, right⟩ := Bool.and_eq_true_iff.mp h
      rw [expand]
      apply IsMultipliedOut.plus
      · exact iha left (fit.mono (parts_left rfl)) (apart.mono (parts_left rfl))
      · exact ihb right (fit.mono (parts_right rfl)) (apart.mono (parts_right rfl))
  | sub a b iha ihb =>
      obtain ⟨left, right⟩ := Bool.and_eq_true_iff.mp h
      rw [expand]
      apply IsMultipliedOut.plus
      · exact iha left (fit.mono (parts_left rfl)) (apart.mono (parts_left rfl))
      · exact (ihb right (fit.mono (parts_right rfl)) (apart.mono (parts_right rfl))).negate
  | mul a b iha ihb =>
      obtain ⟨left, right⟩ := Bool.and_eq_true_iff.mp h
      rw [expand]
      apply IsMultipliedOut.expandTimes
      · exact iha left (fit.mono (parts_left rfl)) (apart.mono (parts_left rfl))
      · exact ihb right (fit.mono (parts_right rfl)) (apart.mono (parts_right rfl))
      · exact fit a b (mem_parts_self _)
      · exact apart a b (mem_parts_self _)
  | neg a ih =>
      have inside : ∀ x ∈ a.parts, x ∈ (neg a).parts := fun x member => .tail _ member
      rw [expand]
      exact (ih h (fit.mono inside) (apart.mono inside)).negate
  | _ => cases h

theorem IsPowerProduct.factors_multiple (h : IsPowerProduct l) (q : Rat) :
    ∀ f ∈ (multiple q l).factors ++ (multiple q l).asMultiple.2.factors,
      f.isSum = false ∧ f.isNegatedSum = false := by
  have number (c : Rat) : ∀ f ∈ (const c).factors, f.isSum = false ∧ f.isNegatedSum = false := by
    intro f member
    rw [factors.eq_def] at member
    dsimp only at member
    split at member
    · cases member
    · rw [List.mem_singleton.mp member]
      exact ⟨rfl, rfl⟩
  have powers : ∀ f ∈ (sortedProduct l).factors, f.isSum = false ∧ f.isNegatedSum = false := by
    rw [factors_sortedProduct h.isKey.atoms, h.sorted]
    intro f member
    have factor := h.independent.factor f member
    refine ⟨(h.symbols f member).isSum, ?_⟩
    cases f <;> first | rfl | cases factor
  by_cases vanishes : q = 0
  · rw [vanishes, multiple_zero]
    exact List.forall_mem_append.mpr ⟨number 0, number 1⟩
  rw [asMultiple_multiple h.isKey.toIsMonic vanishes, List.forall_mem_append]
  refine ⟨?_, powers⟩
  by_cases empty : l = []
  · rw [empty, multiple_nil]
    exact number q
  obtain ⟨-, same⟩ | ⟨-, same⟩ | ⟨-, -, same⟩ := multiple_cases h.isKey.toIsMonic vanishes empty
  · rw [same]
    exact powers
  · have plain : (sortedProduct l).isSum = false := by
      rw [h.isKey.sortedProduct_eq]
      exact h.isKey.plain
    rw [same]
    exact List.forall_mem_singleton.mpr ⟨rfl, plain⟩
  · rw [same]
    exact List.forall_mem_append.mpr ⟨number q, powers⟩

/-- No product of sums and no multiple of a sum is left, if no opposite of a sum is multiplied
on the way. -/
theorem expand_hasNoSumFactor (h : e.isPolynomial = true) (fit : ProductsFit e)
    (apart : NegatedSumsStandApart e) : HasNoSumFactor e.expand := by
  intro t member
  obtain ⟨l, q, products, rfl⟩ := (isMultipliedOut_expand h fit apart).terms member
  exact products.factors_multiple q

/-- The opposite of a sum is turned by -1 before it meets another sum. -/
theorem expand_product_of_turned_sum :
    ∃ e, e = mul (mul (neg (add (var "x") (var "y"))) (const (-1))) (sub (var "x") (var "y")) ∧
      e.isPolynomial = true ∧ ProductsFit e ∧ NegatedSumsStandApart e ∧ HasNoSumFactor e.expand := by
  refine ⟨_, rfl, rfl, ?_⟩
  have products {a b : Expr} (member : mul a b ∈ (mul (mul (neg (add (var "x") (var "y")))
      (const (-1))) (sub (var "x") (var "y"))).parts) :
      a = mul (neg (add (var "x") (var "y"))) (const (-1)) ∧ b = sub (var "x") (var "y") ∨
        a = neg (add (var "x") (var "y")) ∧ b = const (-1) := by
    simpa [parts] using member
  have fit : ProductsFit (mul (mul (neg (add (var "x") (var "y"))) (const (-1)))
      (sub (var "x") (var "y"))) := by
    intro a b member
    rcases products member with ⟨rfl, rfl⟩ | ⟨rfl, rfl⟩ <;> decide +kernel
  have apart : NegatedSumsStandApart (mul (mul (neg (add (var "x") (var "y"))) (const (-1)))
      (sub (var "x") (var "y"))) := by
    intro a b member
    rcases products member with ⟨rfl, rfl⟩ | ⟨rfl, rfl⟩ <;> decide +kernel
  exact ⟨fit, apart, expand_hasNoSumFactor rfl fit apart⟩

/-- A number is not multiplied into the opposite of a sum. -/
theorem multiple_of_sum_is_left :
    ¬∀ e : Expr, e.isPolynomial = true → ProductsFit e → HasNoSumFactor e.expand := by
  intro all
  have fit : ProductsFit (mul (const 2) (neg (add (var "x") (const 1)))) := by
    intro a b member
    obtain ⟨rfl, rfl⟩ : a = const 2 ∧ b = neg (add (var "x") (const 1)) := by
      simpa [parts] using member
    decide +kernel
  have expanded : (mul (const 2) (neg (add (var "x") (const 1)))).expand =
      mul (const (-2)) (add (var "x") (const 1)) := by decide +kernel
  have plain := all _ rfl fit
  rw [expanded] at plain
  have sum := plain _ (List.mem_singleton_self _) (add (var "x") (const 1)) (by decide)
  cases sum.1

end SymbolicAlgebra.Expr
