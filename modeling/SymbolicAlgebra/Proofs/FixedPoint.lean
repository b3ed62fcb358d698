import Mathlib.Logic.Function.Iterate
import SymbolicAlgebra.FixedPoint
import SymbolicAlgebra.Proofs.Arithmetic.Product
import SymbolicAlgebra.Proofs.Identity.Trigonometric

/-! What simplification keeps. A pass gives back a multiple of powers of different bases
that are evaluated themselves, and a sum of such multiples, if there is no sine or
cosine among the factors that an identity could join. Simplification iterates the pass. -/

namespace SymbolicAlgebra.Expr

variable {a b e f : Expr} {l m : List Expr} {q : Rat} {A : LikeTerms}

/-- The factors that the trigonometric identities look for. -/
def isTrigonometric : Expr → Bool
  | app .sin _ | app .cos _ | pow (app .sin _) _ | pow (app .cos _) _ => true
  | _ => false

/-- An expression no term of which has such a factor, however the terms are signed. -/
def PlainTerms (e : Expr) : Prop :=
  ∀ negative, ∀ t ∈ e.termsWithSign negative, ∀ f ∈ t.asMultiple.2.factors, f.isTrigonometric = false

theorem PlainTerms.joinTerms? (h : PlainTerms e) : joinTerms? e.terms = none := by
  cases joined : SymbolicAlgebra.joinTerms? e.terms with
  | none => rfl
  | some found =>
      obtain ⟨j, others⟩ := found
      obtain ⟨s, t, perm, squared | angle⟩ := joinTerms?_eq_some joined
      · have s_term : s ∈ e.terms := perm.mem_iff.mpr (.head _)
        obtain ⟨u, v, first, -⟩ := SquaredTerm.join?_eq_some squared
        obtain ⟨factors, trigonometric, -⟩ := SquaredTerm.ofTerm?_eq_some first
        have plain := h false s s_term _ (factors.mem_iff.mpr (.head _))
        rcases trigonometric with head | head <;> rw [head] at plain <;> cases plain
      · have sine {s c : Expr} (member : s ∈ e.terms)
            (found : AngleTerm.difference? (.ofTerm s) (.ofTerm c) = some j) : False := by
          obtain ⟨u, v, factors, -⟩ := AngleTerm.difference?_eq_some found
          have listed : app .sin u ∈ s.asMultiple.2.factors := by
            rw [(AngleTerm.ofTerm_perm s).mem_iff, factors]
            exact .head _
          cases h false s member _ listed
        rcases Option.or_eq_some_iff.mp angle with found | ⟨-, found⟩
        · exact (sine (perm.mem_iff.mpr (.head _)) found).elim
        · exact (sine (perm.mem_iff.mpr (.tail _ (.head _))) found).elim

theorem PlainTerms.neg (h : PlainTerms e) : PlainTerms (.neg e) :=
  fun negative => h (!negative)

theorem PlainTerms.pass_eq (h : PlainTerms e.evaluate) : e.pass = e.evaluate := by
  rw [pass, h.joinTerms?]

theorem plainTerms_multiple (h : IsKey l) (plain : ∀ f ∈ l, f.isTrigonometric = false) (q : Rat) :
    PlainTerms (multiple q l) := by
  intro negative t member f factor
  rw [h.termsWithSign_multiple, List.mem_singleton] at member
  rw [member] at factor
  generalize (if negative then -q else q) = r at factor
  by_cases vanishes : r = 0
  · rw [vanishes] at factor
    cases factor
  · rw [asMultiple_multiple h.toIsMonic vanishes, factors_sortedProduct h.atoms, h.sorted] at factor
    exact plain f factor

theorem plainTerms_sumOf {key : List Expr → Prop} (h : SumOf key e)
    (keys : ∀ l, key l → IsKey l ∧ ∀ f ∈ l, f.isTrigonometric = false) : PlainTerms e := by
  intro negative t member
  rcases h.multiple_of_mem_terms (fun l proper => (keys l proper).1.toIsTerm) member with
    rfl | ⟨l, q, proper, rfl⟩
  · exact List.forall_mem_nil _
  · obtain ⟨isKey, plain⟩ := keys l proper
    refine plainTerms_multiple isKey plain q false _ ?_
    rw [isKey.termsWithSign_multiple]
    exact List.mem_singleton_self _

/-- Powers of different bases that evaluation keeps and no identity joins. -/
structure Settled (l : List Expr) : Prop extends Independent l where
  evaluated : ∀ f ∈ l, f.evaluate = f
  plain : ∀ f ∈ l, f.isTrigonometric = false

namespace Settled

theorem nil : Settled [] where
  power := List.forall_mem_nil _
  distinct := .nil
  evaluated := List.forall_mem_nil _
  plain := List.forall_mem_nil _

theorem perm (h : Settled l) (perm : l.Perm m) : Settled m where
  toIndependent := h.toIndependent.perm perm
  evaluated f member := h.evaluated f (perm.mem_iff.mpr member)
  plain f member := h.plain f (perm.mem_iff.mpr member)

theorem evaluate_foldl_mul (h : Settled (m ++ l)) (some_factor : m ≠ [])
    (start : e.evaluate = multiple 1 m) : (l.foldl mul e).evaluate = multiple 1 (m ++ l) := by
  induction l generalizing e m with
  | nil => rwa [List.append_nil]
  | cons f rest ih =>
      have split : m ++ f :: rest = m ++ [f] ++ rest := by simp
      rw [split] at h ⊢
      have factor := h.factor f (by simp)
      have single : f = multiple 1 [f] := (multiple_one_singleton factor).symm
      have product := times_independent h.left
        (.of_factors h.left.left.factor h.left.right.factor some_factor (List.cons_ne_nil f []) 1 1)
      rw [← single, one_mul] at product
      have extended : (mul e f).evaluate = multiple 1 (m ++ [f]) := by
        rw [evaluate, start, h.evaluated f (by simp), product]
      exact ih h (by simp) extended

theorem evaluate_product (h : Settled l) : (product l).evaluate = multiple 1 l := by
  cases l with
  | nil => exact (multiple_nil 1).symm
  | cons f rest =>
      have factor := h.factor f List.mem_cons_self
      have first : f.evaluate = multiple 1 [f] := by
        rw [h.evaluated f List.mem_cons_self, multiple_one_singleton factor]
      exact evaluate_foldl_mul h (List.cons_ne_nil _ _) first

/-- A multiple is evaluated, unless it is a number times a sum. -/
theorem evaluate_multiple (h : Settled l) (key : IsKey (Sorting.sort le l)) (q : Rat) :
    (multiple q l).evaluate = multiple q l := by
  have perm := Sorting.sort_perm le l
  have product : (sortedProduct l).evaluate = multiple 1 l := by
    rw [sortedProduct_eq (atoms h.factor), (h.perm perm.symm).evaluate_product, multiple_perm perm]
  by_cases vanishes : q = 0
  · rw [vanishes]
    rfl
  by_cases empty : l = []
  · rw [empty, multiple_nil]
    rfl
  obtain ⟨rfl, same⟩ | ⟨rfl, same⟩ | ⟨-, -, same⟩ := multiple_cases (isMonic h.factor) vanishes empty
  · rw [same, product, multiple_one (isMonic h.factor)]
  · rw [same, evaluate, product, negate_multiple (isMonic h.factor), same]
  · have notSum : (multiple 1 l).isSum = false := by
      rw [← multiple_perm perm]
      exact key.isSum_multiple 1
    have number : (const q).evaluate = const q := rfl
    rw [same, evaluate, product, number, const_times_multiple h.toIndependent q 1 (by simp [notSum]),
      mul_one, same]

end Settled

theorem evaluate_sumOf {key : List Expr → Prop} (h : SumOf key e)
    (keys : ∀ l, key l → IsKey l ∧ Settled l) : e.evaluate = e := by
  induction h with
  | zero => rfl
  | multiple proper _ =>
      obtain ⟨isKey, settled⟩ := keys _ proper
      exact settled.evaluate_multiple (isKey.sorted.symm ▸ isKey) _
  | add _ proper _ last ih =>
      obtain ⟨isKey, settled⟩ := keys _ proper
      rw [evaluate, ih, settled.evaluate_multiple (isKey.sorted.symm ▸ isKey), last]

theorem pass_sumOf {key : List Expr → Prop} (h : SumOf key e)
    (keys : ∀ l, key l → IsKey l ∧ Settled l) : e.pass = e := by
  have evaluated := evaluate_sumOf h keys
  have plain := plainTerms_sumOf h fun l proper => ⟨(keys l proper).1, (keys l proper).2.plain⟩
  rw [PlainTerms.pass_eq (evaluated.symm ▸ plain), evaluated]

theorem pass_neg_sumOf {key : List Expr → Prop} (h : SumOf key e)
    (keys : ∀ l, key l → IsKey l ∧ Settled l) (sum : e.isSum = true) : (neg e).pass = neg e := by
  have opposite : e.negate = neg e := by
    cases e <;> first | rfl | cases sum
  have evaluated : (neg e).evaluate = neg e := by rw [evaluate, evaluate_sumOf h keys, opposite]
  have plain := plainTerms_sumOf h fun l proper => ⟨(keys l proper).1, (keys l proper).2.plain⟩
  rw [PlainTerms.pass_eq (evaluated.symm ▸ plain.neg), evaluated]

theorem pass_collected (keys : Keyed A) (settled : ∀ entry ∈ A, Settled entry.1) :
    (collected A).pass = collected A := by
  apply pass_sumOf (sumOf_collected keys.terms)
  rintro l ⟨r, listed⟩
  exact ⟨keys _ listed, settled _ listed⟩

theorem pass_multiple (h : Settled l) (key : IsKey (Sorting.sort le l)) (q : Rat) :
    (multiple q l).pass = multiple q l := by
  have perm := Sorting.sort_perm le l
  rw [← multiple_perm perm, key.multiple_eq]
  apply pass_collected (List.forall_mem_singleton.mpr key)
  exact List.forall_mem_singleton.mpr (h.perm perm.symm)

theorem simplify_of_evaluate (evaluated : a.evaluate = e) (plain : PlainTerms e) (fixed : e.pass = e) :
    a.simplify = e := by
  rw [simplify, simplifyWithin_eq_passes, defaultPasses, passes, PlainTerms.pass_eq (evaluated ▸ plain),
    evaluated, passes_fixed fixed]

/-- A multiple of settled factors to which an expression is evaluated is its simplified form. -/
theorem Settled.simplify_eq (h : Settled l) (key : IsKey (Sorting.sort le l))
    (evaluated : a.evaluate = multiple q l) : a.simplify = multiple q l := by
  refine simplify_of_evaluate evaluated ?_ (pass_multiple h key q)
  rw [← multiple_perm (Sorting.sort_perm le l)]
  exact plainTerms_multiple key (forall_mem_sort h.plain) q

theorem simplifyWithin_of_pass (fixed : e.pass = e) (n : Nat) : e.simplifyWithin n = e := by
  rw [simplifyWithin_eq_passes, passes_fixed fixed]

section Iteration
variable {n : Nat} {r : Expr}

theorem passes_eq_iterate (n : Nat) (e : Expr) : passes n e = pass^[n] e := by
  induction n generalizing e with
  | zero => rfl
  | succ n ih => rw [passes, ih, Function.iterate_succ_apply]

theorem simplifyIn_eq_iterate (table : Table) (n : Nat) (e : Expr) :
    simplifyIn table n e = pass^[n] e := by
  rw [simplifyIn_eq_passes, passes_eq_iterate]

theorem simplifyWithin_eq_iterate (e : Expr) (n : Nat) : e.simplifyWithin n = pass^[n] e :=
  simplifyIn_eq_iterate ∅ n e

theorem simplifyWithin_succ (e : Expr) (n : Nat) :
    e.simplifyWithin (n + 1) = (e.simplifyWithin n).pass := by
  rw [simplifyWithin_eq_iterate, simplifyWithin_eq_iterate, Function.iterate_succ_apply']

/-- A result that one more pass leaves as it is, is left so by all. -/
theorem simplifyWithin_stable (reached : e.simplifyWithin n = r) (kept : e.simplifyWithin (n + 1) = r)
    (m : Nat) : r.simplifyWithin m = r := by
  have fixed : r.pass = r := by rw [← reached, ← simplifyWithin_succ, kept, reached]
  exact simplifyWithin_of_pass fixed m

/-- Simplification iterates the pass: the count may be split, with a new table for each part,
and neither what a table holds already nor the early end shows in a result. -/
theorem simplifyWithin_iterates (e : Expr) (n m : Nat) :
    e.simplifyWithin (n + m) = (e.simplifyWithin n).simplifyWithin m ∧
      e.simplifyWithin (n + m) = pass^[n + m] e ∧
      (∀ table, simplifyIn table (n + m) e = pass^[n + m] e) ∧
      ∀ r, e.simplifyWithin n = r → e.simplifyWithin (n + 1) = r → r.simplifyWithin m = r := by
  refine ⟨?_, simplifyWithin_eq_iterate e _, fun table => simplifyIn_eq_iterate table _ e, ?_⟩
  · rw [simplifyWithin_eq_iterate, simplifyWithin_eq_iterate, simplifyWithin_eq_iterate,
      Nat.add_comm, Function.iterate_add_apply]
  · intro r reached kept
    exact simplifyWithin_stable reached kept m

/-- A square sum of sine and cosine is 1 after one pass, and stays it. -/
theorem simplifyWithin_squares :
    ∃ e, e = add (pow (app .sin (var "x")) (const 2)) (pow (app .cos (var "x")) (const 2)) ∧
      e.simplifyWithin 1 = const 1 ∧ e.simplifyWithin 2 = const 1 ∧
      (const 1).simplifyWithin 5 = const 1 := by
  refine ⟨_, rfl, ?_⟩
  have reached : (add (pow (app .sin (var "x")) (const 2))
      (pow (app .cos (var "x")) (const 2))).simplifyWithin 1 = const 1 := by
    rw [simplifyWithin_eq_passes]
    decide +kernel
  have kept : (add (pow (app .sin (var "x")) (const 2))
      (pow (app .cos (var "x")) (const 2))).simplifyWithin 2 = const 1 := by
    rw [simplifyWithin_eq_passes]
    decide +kernel
  exact ⟨reached, kept, (simplifyWithin_iterates _ 1 5).2.2.2 _ reached kept⟩

end Iteration

end SymbolicAlgebra.Expr
