import SymbolicAlgebra.Proofs.NormalForm.Product
import SymbolicAlgebra.Proofs.Polynomial.Expression

/-! The normal form keeps the expression of a polynomial: its powers of the symbol have
nothing to take out and nothing to cancel, and its terms are added up again. -/

namespace SymbolicAlgebra.Expr

variable {name : String} {e : Expr} {l : List Expr} {c k : Rat} {limit depth : ℕ}

theorem linearPower?_var (name : String) (e : Expr) : linearPower? (var name) e = none := by
  unfold linearPower?
  split
  · split <;> rfl
  · rfl

/-- An expression that simplification keeps need not be small. -/
theorem normalLevel_of_pass {next : Expr → Expr} (fixed : e.pass = e)
    (small : e.size ≤ limit → normalLevel limit next e = e) : normalLevel limit next e = e := by
  by_cases large : limit < e.size
  · unfold normalLevel
    rw [if_pos large]
    exact simplifyWithin_of_pass fixed defaultPasses
  · exact small (Nat.le_of_not_lt large)

theorem normalizeWithin_var (limit depth : ℕ) (name : String) :
    normalizeWithin limit depth (var name) = var name := by
  cases depth with
  | zero => rfl
  | succ depth => exact normalLevel_of_pass rfl fun small => if_neg (Nat.not_lt.mpr small)

theorem normalizeWithin_const (limit depth : ℕ) (c : Rat) :
    normalizeWithin limit depth (const c) = const c := by
  cases depth with
  | zero => rfl
  | succ depth => exact normalLevel_of_pass rfl fun small => if_neg (Nat.not_lt.mpr small)

theorem pass_multiple_powers (name : String) (c k : Rat) :
    (multiple c (powers (var name) k)).pass = multiple c (powers (var name) k) :=
  pass_multiple (settled_powers name k) ((isKey_powers name k).sorted.symm ▸ isKey_powers name k) c

theorem normalizeWithin_powers (limit depth : ℕ) (name : String) (k : Rat) :
    ∀ f ∈ powers (var name) k, normalizeWithin limit depth f = f := by
  have settled := settled_powers name k
  unfold powers at settled ⊢
  split
  · exact List.forall_mem_nil _
  next k_ne =>
    rw [if_neg k_ne] at settled
    split
    · exact List.forall_mem_singleton.mpr (normalizeWithin_var limit depth name)
    next one_ne =>
      rw [if_neg one_ne] at settled
      rw [List.forall_mem_singleton]
      have fixed := pass_multiple settled (isKey_sort settled.factor rfl) 1
      rw [multiple_one (isMonic settled.factor), sortedProduct_singleton rfl] at fixed
      cases depth with
      | zero => rfl
      | succ depth =>
          apply normalLevel_of_pass fixed
          intro small
          rw [normalLevel, if_neg (Nat.not_lt.mpr small), normalPower, normalizeWithin_var,
            normalizeWithin_const, linearPower?_var]
          exact settled.evaluated _ (List.mem_singleton_self _)

/-- The opposite of a product is normalized inside the sign. -/
theorem normalizeWithin_neg (fixed : (neg e).pass = neg e) (kept : e.negate = neg e)
    (inside : normalizeWithin limit depth e = e) : normalizeWithin limit (depth + 1) (neg e) = neg e := by
  apply normalLevel_of_pass fixed
  intro small
  rw [normalLevel, if_neg (Nat.not_lt.mpr small), inside, kept]

/-- A multiple of a positive power of the symbol is its own normal form. -/
theorem normalizeWithin_multiple_powers (limit depth : ℕ) (name : String) (c : Rat) (nonneg : 0 ≤ k) :
    normalizeWithin limit depth (multiple c (powers (var name) k)) = multiple c (powers (var name) k) := by
  by_cases k_ne : k = 0
  · rw [k_ne, powers_zero, multiple_nil]
    exact normalizeWithin_const limit depth c
  by_cases c_ne : c = 0
  · rw [c_ne, multiple_zero]
    exact normalizeWithin_const limit depth 0
  have key := isKey_powers name k
  have fixed := pass_multiple_powers name c k
  have settled := settled_powers name k
  have some_factor := powers_ne_nil (b := var name) k_ne
  obtain ⟨f, listed, -, -⟩ := exists_powers (b := var name) rfl k_ne
  have kept := normalizeWithin_powers limit
  have single : sortedProduct (powers (var name) k) = f := by
    rw [listed]
    exact sortedProduct_singleton (key.atoms f (listed ▸ List.mem_singleton_self f))
  cases depth with
  | zero => rfl
  | succ depth =>
      have product : normalProduct (normalizeWithin limit depth) (multiple c (powers (var name) k)) =
          multiple c (powers (var name) k) := by
        apply FactoredProduct.normalProduct_of_positive (isEntry_powers rfl k) (kept depth name k) c_ne
        · intro f member
          have entered := List.mem_map_of_mem (f := divisorPower) member
          rw [divisorPower_powers rfl k_ne, List.mem_singleton] at entered
          rw [entered]
          exact lt_of_le_of_ne nonneg (Ne.symm k_ne)
        · rw [listed]
          exact List.nodup_singleton _
        · exact settled.toIndependent
        · right
          unfold powers
          rw [if_neg k_ne]
          split <;> exact List.forall_mem_singleton.mpr rfl
      obtain ⟨-, same⟩ | ⟨-, same⟩ | ⟨-, -, same⟩ := multiple_cases key.toIsMonic c_ne some_factor
      · rw [same, single]
        exact kept (depth + 1) name k f (listed ▸ List.mem_singleton_self f)
      · rw [same] at fixed ⊢
        apply normalizeWithin_neg fixed (negate_sortedProduct key.toIsMonic some_factor)
        rw [single]
        exact kept depth name k f (listed ▸ List.mem_singleton_self f)
      · rw [same] at fixed product ⊢
        apply normalLevel_of_pass fixed
        intro small
        rw [normalLevel, if_neg (Nat.not_lt.mpr small)]
        exact product

/-- A sum whose terms are their own normal forms is its own normal form. -/
theorem normalizeWithin_sumOf {key : List Expr → Prop} (h : SumOf key e)
    (keys : ∀ l, key l → IsKey l ∧ Settled l)
    (terms : ∀ l, key l → ∀ c ≠ 0, ∀ depth, normalizeWithin limit depth (multiple c l) = multiple c l)
    (depth : ℕ) : normalizeWithin limit depth e = e := by
  induction depth generalizing e with
  | zero => rfl
  | succ depth ih =>
      have fixed := pass_sumOf h keys
      cases h with
      | zero => exact normalizeWithin_const limit (depth + 1) 0
      | multiple proper c_ne => exact terms _ proper _ c_ne (depth + 1)
      | add initial proper c_ne last =>
          apply normalLevel_of_pass fixed
          intro small
          rw [normalLevel, if_neg (Nat.not_lt.mpr small), ih initial, terms _ proper _ c_ne depth, last]

theorem normalizeWithin_simplified (limit depth : ℕ) (name : String) (p : Poly) :
    normalizeWithin limit depth (p.simplified name) = p.simplified name := by
  apply normalizeWithin_sumOf (Poly.sumOf_simplified name p)
  · rintro l ⟨d, -, rfl⟩
    exact ⟨isKey_powers name d, settled_powers name d⟩
  · rintro l ⟨d, -, rfl⟩ c - depth
    exact normalizeWithin_multiple_powers limit depth name c (Nat.cast_nonneg d)

end SymbolicAlgebra.Expr
