import SymbolicAlgebra.Proofs.Arithmetic.Distribution

/-! Products of powers of symbols: the terms of a polynomial in any number of symbols. Two of
them are multiplied by adding the exponents of the symbols that they share. -/

namespace SymbolicAlgebra.Expr

variable {f : Expr} {l m items : List Expr} {q r : Rat}

/-- A power of a symbol with a positive exponent, as it stands in a product. -/
def IsSymbolPower (f : Expr) : Prop := ∃ name k, 0 < k ∧ powers (var name) k = [f]

namespace IsSymbolPower

theorem isPower (h : IsSymbolPower f) : IsPower f := by
  obtain ⟨name, k, positive, listed⟩ := h
  obtain ⟨g, same, power, -⟩ := exists_powers (b := var name) rfl positive.ne'
  rw [listed] at same
  rwa [List.head_eq_of_cons_eq same]

theorem asPower_eq (h : IsSymbolPower f) : ∃ name k, 0 < k ∧ f.asPower = (var name, const k) := by
  obtain ⟨name, k, positive, listed⟩ := h
  obtain ⟨g, same, -, parts⟩ := exists_powers (b := var name) rfl positive.ne'
  rw [listed] at same
  obtain rfl := List.head_eq_of_cons_eq same
  exact ⟨name, k, positive, parts⟩

theorem isSum (h : IsSymbolPower f) : f.isSum = false := by
  obtain ⟨name, k, -, listed⟩ := h
  exact isSum_powers_var (listed ▸ List.mem_singleton_self f)

theorem isDivisor (h : IsSymbolPower f) : f.isDivisor = false := by
  obtain ⟨name, k, positive, listed⟩ := h
  exact isDivisor_powers_var positive.le (listed ▸ List.mem_singleton_self f)

end IsSymbolPower

/-- Positive powers of different symbols, in order. -/
structure IsPowerProduct (l : List Expr) : Prop where
  symbols : ∀ f ∈ l, IsSymbolPower f
  distinct : (l.map fun f => f.asPower.1).Nodup
  sorted : Sorting.sort le l = l

theorem isPowerProduct_nil : IsPowerProduct [] := ⟨List.forall_mem_nil _, .nil, rfl⟩

namespace IsPowerProduct

theorem independent (h : IsPowerProduct l) : Independent l where
  power f member := (h.symbols f member).isPower
  distinct := h.distinct

theorem isKey (h : IsPowerProduct l) : IsKey l := by
  cases l with
  | nil => exact isKey_nil
  | cons f rest =>
      rw [← h.sorted]
      exact isKey_sort_of_mem h.independent.factor List.mem_cons_self (h.symbols f List.mem_cons_self).isSum

theorem noDivisor (h : IsPowerProduct l) : ∀ f ∈ l, f.isDivisor = false :=
  fun f member => (h.symbols f member).isDivisor

end IsPowerProduct

/-- Powers of different symbols with positive exponents, each as base and exponent. -/
structure SymbolPowers (powers : List (Expr × Expr)) : Prop where
  positive : ∀ p ∈ powers, ∃ name k, 0 < k ∧ p = (var name, const k)
  distinct : (powers.map Prod.fst).Nodup

/-- Joining one more power adds its exponent or lists it last. -/
theorem SymbolPowers.joinPower {powers : List (Expr × Expr)} {name : String} {k : Rat}
    (h : SymbolPowers powers) (positive : 0 < k) :
    SymbolPowers (Expr.joinPower (var name) (const k) powers) := by
  by_cases listed : var name ∈ powers.map Prod.fst
  · obtain ⟨p, member, base⟩ := List.mem_map.mp listed
    obtain ⟨other, j, j_pos, rfl⟩ := h.positive p member
    obtain rfl := Expr.var.inj base
    obtain ⟨before, after, rfl⟩ := List.append_of_mem member
    have distinct := h.distinct
    rw [List.map_append, List.map_cons] at distinct
    have new : var other ∉ before.map Prod.fst := by
      intro early
      exact (List.nodup_append.mp distinct).2.2 _ early _ List.mem_cons_self rfl
    rw [joinPower_old new, const_plus_const]
    refine ⟨?_, by rwa [List.map_append, List.map_cons]⟩
    intro p inside
    rcases List.mem_append.mp inside with early | late
    · exact h.positive p (List.mem_append_left _ early)
    · rcases List.mem_cons.mp late with rfl | late
      · exact ⟨other, j + k, add_pos j_pos positive, rfl⟩
      · exact h.positive p (List.mem_append_right _ (.tail _ late))
  · rw [joinPower_new listed]
    constructor
    · exact List.forall_mem_append.mpr
        ⟨h.positive, List.forall_mem_singleton.mpr ⟨name, k, positive, rfl⟩⟩
    · rw [List.map_append, List.nodup_append]
      refine ⟨h.distinct, List.nodup_singleton _, ?_⟩
      rintro a early b late rfl
      obtain rfl := List.mem_singleton.mp late
      exact listed early

theorem symbolPowers_joinedPowers (h : ∀ f ∈ items, IsSymbolPower f) :
    SymbolPowers (joinedPowers items) := by
  have run (items : List Expr) (h : ∀ f ∈ items, IsSymbolPower f) (powers : List (Expr × Expr))
      (start : SymbolPowers powers) : SymbolPowers
        (items.foldl (fun powers item => joinPower item.asPower.1 item.asPower.2 powers) powers) := by
    induction items generalizing powers with
    | nil => exact start
    | cons f rest ih =>
        obtain ⟨first, others⟩ := List.forall_mem_cons.mp h
        obtain ⟨name, k, positive, parts⟩ := first.asPower_eq
        rw [List.foldl_cons, parts]
        exact ih others _ (start.joinPower positive)
  exact run items h [] ⟨List.forall_mem_nil _, .nil⟩

/-- The factors of the product of two products. -/
def joined (l m : List Expr) : List Expr :=
  Sorting.sort le ((joinedPowers (Sorting.sort le (l ++ m))).map fun p => p.1.raise p.2)

theorem joined_comm (l m : List Expr) : joined l m = joined m l := by
  rw [joined, sort_eq_of_perm List.perm_append_comm, joined]

theorem joined_of_independent (h : Independent (l ++ m)) : joined l m = Sorting.sort le (l ++ m) := by
  have sorted := h.perm (Sorting.sort_perm le (l ++ m)).symm
  have raised : ((Sorting.sort le (l ++ m)).map asPower).map (fun p => p.1.raise p.2) =
      Sorting.sort le (l ++ m) := by
    rw [List.map_map]
    conv_rhs => rw [← List.map_id (Sorting.sort le (l ++ m))]
    apply List.map_congr_left
    exact fun f member => (sorted.power f member).raised
  rw [joined, joinedPowers_of_distinct sorted.distinct, raised, sort_sort]

theorem isPowerProduct_joined (h : IsPowerProduct l) (k : IsPowerProduct m) :
    IsPowerProduct (joined l m) := by
  have items : ∀ f ∈ Sorting.sort le (l ++ m), IsSymbolPower f :=
    forall_mem_sort (List.forall_mem_append.mpr ⟨h.symbols, k.symbols⟩)
  have powers := symbolPowers_joinedPowers items
  generalize shape : joinedPowers (Sorting.sort le (l ++ m)) = ps at powers
  have raised : ∀ p ∈ ps, IsSymbolPower (p.1.raise p.2) ∧ (p.1.raise p.2).asPower.1 = p.1 := by
    intro p member
    obtain ⟨name, k, positive, rfl⟩ := powers.positive p member
    have listed := powers_eq_raise (b := var name) rfl positive.ne'
    obtain ⟨g, same, -, parts⟩ := exists_powers (b := var name) rfl positive.ne'
    rw [listed] at same
    obtain rfl := List.head_eq_of_cons_eq same
    exact ⟨⟨name, k, positive, listed⟩, by rw [parts]⟩
  have perm := Sorting.sort_perm le (ps.map fun p => p.1.raise p.2)
  rw [joined, shape]
  constructor
  · exact forall_mem_sort (List.forall_mem_map.mpr fun p member => (raised p member).1)
  · rw [(perm.map _).nodup_iff, List.map_map]
    have bases : ps.map ((fun f : Expr => f.asPower.1) ∘ fun p => p.1.raise p.2) = ps.map Prod.fst :=
      List.map_congr_left fun p member => (raised p member).2
    rw [bases]
    exact powers.distinct
  · exact sort_sort _

theorem times_powerProducts (h : IsPowerProduct l) (k : IsPowerProduct m) (q r : Rat) :
    (multiple q l).times (multiple r m) = multiple (q * r) (joined l m) := by
  have left := h.independent.factor
  have right := k.independent.factor
  have plain := MultipliesPlainly.of_keys h.isKey k.isKey q r
  by_cases apart : Independent (l ++ m)
  · rw [times_independent apart plain, joined_of_independent apart, multiple_perm (Sorting.sort_perm le _)]
  have l_ne : l ≠ [] := by
    rintro rfl
    exact apart k.independent
  have m_ne : m ≠ [] := by
    rintro rfl
    exact apart (by simpa using h.independent)
  rw [times_eq_timesPlain plain]
  by_cases q_ne : q = 0
  · rw [q_ne, zero_mul, multiple_zero, multiple_zero, (isFinite_multiple right _).timesPlain_zero_left]
  by_cases r_ne : r = 0
  · rw [r_ne, mul_zero, multiple_zero, multiple_zero, (isFinite_multiple left _).timesPlain_zero_right]
  have notOne {q : Rat} {l : List Expr} (h : ∀ f ∈ l, f.isFactor = true) (l_ne : l ≠ []) :
      (multiple q l).isOne = false := by
    by_contra unit
    exact l_ne (eq_one_of_isOne_multiple h (by simpa using unit)).2
  have product := timesPlain_multiple (C := []) left right q_ne r_ne (notOne left l_ne) (notOne right m_ne)
    (by simp [l_ne]) (isPowerProduct_joined h k).independent.factor (t := raise) (by
      rw [List.map_nil, List.append_nil]
      exact (Sorting.sort_perm le _).symm)
  rw [product, List.prod_nil, mul_one]

/-- Power products are joined by any others, on either side. -/
theorem joins_powerProducts {A : LikeTerms} (products : ∀ entry ∈ A, IsPowerProduct entry.1)
    (k : IsPowerProduct m) : Joins (fun l => joined l m) A m := by
  intro entry member
  constructor
  · exact (isPowerProduct_joined (products entry member) k).isKey
  · exact times_powerProducts (products entry member) k

end SymbolicAlgebra.Expr
