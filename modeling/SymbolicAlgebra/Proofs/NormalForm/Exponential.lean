import SymbolicAlgebra.Proofs.CanonicalForm
import SymbolicAlgebra.Proofs.NormalForm.Power

/-! Products of a power of the symbol, a power of `1 - x`, possibly another linear sum, and
`exp x`. The normal form turns the power of `1 - x` into one of `x - 1`, joins it to an
equal sum, and lets a coefficient meet the sum if that comes first. -/

namespace SymbolicAlgebra.Expr
open SymbolicAlgebra.Poly (simplified withCofactor)

variable {name : String} {b e f s : Expr} {l R : List Expr} {p q : Poly} {a c : Rat} {i j limit depth : ℕ}

theorem base_of_mem_powers (base : b.isBase = true) {k : Rat} (member : f ∈ powers b k) : f.asPower.1 = b := by
  unfold powers at member
  split at member
  · cases member
  · split at member <;> rw [List.mem_singleton.mp member]
    · rw [asPower_of_isBase base]
    · rfl

/-- The exponential of the symbol. -/
def expVar (name : String) : Expr := app .exp (var name)

theorem settled_expVar (name : String) : Settled [expVar name] where
  power := List.forall_mem_singleton.mpr isPower_exp
  distinct := List.nodup_singleton _
  evaluated := List.forall_mem_singleton.mpr rfl
  plain := List.forall_mem_singleton.mpr rfl

theorem isEntry_expVar (name : String) : IsEntry (expVar name) where
  factor := rfl
  number := rfl
  powers := rfl
  raised := rfl

theorem linearized_var (name : String) : (var name).linearized = var name := by
  have product : (const 1).times (var name) = var name := by
    have multiplied := const_times_multiple (l := [var name]) (settled_powers name 1).toIndependent 1 1
      (by intro sum; cases sum)
    rwa [one_mul, multiple_one_singleton rfl] at multiplied
  have shape : (var name).linearized = if (1 : Rat) = 0 then const 0
      else if (0 : Rat) = 0 then (const 1).times (var name)
        else ((const 1).times (var name)).plus (const 0) := rfl
  rw [shape, if_neg one_ne_zero, if_pos rfl, product]

theorem normalizeWithin_expVar (limit depth : ℕ) (name : String) :
    normalizeWithin limit depth (expVar name) = expVar name := by
  cases depth with
  | zero => rfl
  | succ depth =>
      apply normalLevel_of_pass
      · have fixed := pass_multiple (settled_expVar name) (isKey_sort (List.forall_mem_singleton.mpr rfl) rfl) 1
        rwa [multiple_one_singleton rfl] at fixed
      · intro small
        change normalLevel limit (normalizeWithin limit depth) (app .exp (var name)) = _
        have whole : ¬ limit < (app .exp (var name)).size := Nat.not_lt.mpr small
        rw [normalLevel, if_neg whole, normalizeWithin_var, linearized_var]
        rfl

/-- The polynomial `1 - x`. -/
def falling : Poly := linear 1 (-1)

theorem isSum_falling (name : String) : (falling.simplified name).isSum = true :=
  isSum_linear one_ne_zero (by decide) name

section Factors
variable (name : String) (i j : ℕ) (d : Poly) (R : List Expr)

/-- A power of the symbol, a power of a sum, and further factors. -/
def withPowers : List Expr := powers (var name) i ++ (powers (d.simplified name) j ++ R)

end Factors

variable {d : Poly}

theorem isEntry_withPowers (sum : (d.simplified name).isSum = true) (j : ℕ)
    (factors : ∀ f ∈ R, IsEntry f) : ∀ f ∈ withPowers name i j d R, IsEntry f := by
  refine List.forall_mem_append.mpr ⟨isEntry_powers rfl i, List.forall_mem_append.mpr ⟨?_, factors⟩⟩
  exact isEntry_powers (isBase_of_isSum sum) j

theorem positive_powers (base : b.isBase = true) (j : ℕ) : ∀ f ∈ powers b j, 0 < f.divisorPower.2 := by
  by_cases j_ne : j = 0
  · rw [j_ne, Nat.cast_zero, powers_zero]
    exact List.forall_mem_nil _
  · intro f member
    have listed := List.mem_map_of_mem (f := divisorPower) member
    rw [divisorPower_powers base (by exact_mod_cast j_ne), List.mem_singleton] at listed
    rw [listed]
    exact Nat.cast_pos.mpr (Nat.pos_of_ne_zero j_ne)

theorem positive_withPowers (sum : (d.simplified name).isSum = true) (j : ℕ)
    (positive : ∀ f ∈ R, 0 < f.divisorPower.2) : ∀ f ∈ withPowers name i j d R, 0 < f.divisorPower.2 := by
  refine List.forall_mem_append.mpr ⟨positive_powers rfl i, List.forall_mem_append.mpr ⟨?_, positive⟩⟩
  exact positive_powers (isBase_of_isSum sum) j

theorem coeff_falling : falling.coeff 1 = -1 := by
  rw [Poly.coeff, falling, terms_linear one_ne_zero (by decide)]
  rfl

theorem withPowers_eq (i : ℕ) (j_ne : (j : ℤ) ≠ 0) (one_ne : (j : ℤ) ≠ 1) (p : Poly) (R : List Expr) :
    withPowers name i j p R = powers (var name) i ++ pow (p.simplified name) (const j) :: R := by
  have power : powers (p.simplified name) j = [pow (p.simplified name) (const j)] :=
    powers_int j_ne one_ne _
  rw [withPowers, power, List.singleton_append]

/-- Powers of the symbol and at most one polynomial are their own normal forms. -/
theorem normalizeWithin_withPowers (limit depth i : ℕ) (small : j ≤ 1)
    (kept : ∀ f ∈ R, normalizeWithin limit depth f = f) :
    ∀ f ∈ withPowers name i j p R, normalizeWithin limit depth f = f := by
  refine List.forall_mem_append.mpr
    ⟨normalizeWithin_powers limit depth name i, List.forall_mem_append.mpr ⟨?_, kept⟩⟩
  obtain rfl | rfl : j = 0 ∨ j = 1 := by omega
  · rw [Nat.cast_zero, powers_zero]
    exact List.forall_mem_nil _
  · rw [Nat.cast_one, powers_one]
    exact List.forall_mem_singleton.mpr (normalizeWithin_simplified limit depth name p)

/-- The normal form of such a product: the power of `1 - x` may become one of `x - 1`. -/
theorem normalProduct_withPowers (limit depth i j : ℕ) (factors : ∀ f ∈ R, IsEntry f)
    (kept : ∀ f ∈ R, normalizeWithin limit depth f = f)
    (new : pow (falling.simplified name) (const j) ∉ R) (c_ne : c ≠ 0) :
    ∃ a : Rat, (a = 1 ∨ a = -1) ∧ (j ≤ 1 → a = 1) ∧ ∃ l : List Expr,
      l.Perm (withPowers name i j (falling.scale a) R) ∧ normalProduct (normalizeWithin limit depth)
        (multiple c (withPowers name i j falling R)) = (FactoredProduct.ofPowers (c * a ^ j) l).toNormal := by
  have sum := isSum_falling name
  have entries := isEntry_withPowers (i := i) sum j factors
  have factor : ∀ f ∈ withPowers name i j falling R, f.isFactor = true :=
    fun f member => (entries f member).factor
  by_cases small : j ≤ 1
  · refine ⟨1, .inl rfl, fun _ => rfl, ?_⟩
    rw [Poly.scale_one, one_pow, mul_one]
    exact FactoredProduct.normalProduct_kept factor (fun f member => (entries f member).number)
      (normalizeWithin_withPowers limit depth i small kept) c_ne
  · have j_ne : (j : ℤ) ≠ 0 := by omega
    have one_ne : (j : ℤ) ≠ 1 := by omega
    obtain ⟨a, a_ne, a_eq, rewritten⟩ := normalizeWithin_pow_sum sum j_ne one_ne limit depth
    have unit : a = 1 ∨ a = -1 := by
      rw [coeff_falling] at a_eq
      exact a_eq.imp_right fun same => by rw [same]; norm_num
    have turned : a ^ (-(j : ℤ)) = a ^ j := by
      rw [zpow_neg, zpow_natCast, ← inv_pow]
      rcases unit with rfl | rfl <;> norm_num
    rw [turned, Int.cast_natCast] at rewritten
    refine ⟨a, unit, fun le => absurd le small, ?_⟩
    have symbol_new : pow (falling.simplified name) (const j) ∉ powers (var name) i := by
      intro member
      have base : falling.simplified name = var name := base_of_mem_powers (b := var name) rfl member
      rw [base] at sum
      cases sum
    have entries' := isEntry_withPowers (i := i) (Poly.isSum_simplified_scale a_ne sum) j factors
    rw [withPowers_eq i j_ne one_ne] at factor entries' ⊢
    rw [withPowers_eq i j_ne one_ne]
    exact FactoredProduct.normalProduct_rewritten (List.not_mem_append symbol_new new)
      factor c_ne (pow_ne_zero j a_ne)
      (List.forall_mem_append.mpr ⟨normalizeWithin_powers limit depth name i, kept⟩) rewritten
      (fun f member => (entries' f member).factor) (fun f member => (entries' f member).number)

theorem divisorBase_of_mem_powers (base : b.isBase = true) (member : f ∈ powers b j) :
    f.divisorPower.1 = b := by
  unfold powers at member
  split at member
  · cases member
  · split at member <;> rw [List.mem_singleton.mp member]
    · cases b <;> first | rfl | cases base
    · rfl

/-- The symbol is no base of a power of a sum. -/
theorem symbol_notMem_powers (sum : (d.simplified name).isSum = true) (j : ℕ) :
    var name ∉ (powers (d.simplified name) j).map fun f => f.asPower.1 := by
  intro member
  obtain ⟨f, inside, same⟩ := List.mem_map.mp member
  rw [base_of_mem_powers (isBase_of_isSum sum) inside] at same
  rw [same] at sum
  cases sum

/-- The factors are settled if the further ones are, with other bases. -/
theorem settled_withPowers (sum : (d.simplified name).isSum = true)
    (symbol : var name ∉ R.map fun f => f.asPower.1)
    (new : j ≠ 0 → d.simplified name ∉ R.map fun f => f.asPower.1) (settled : Settled R) (i : ℕ) :
    Settled (withPowers name i j d R) := by
  have inner : Settled (powers (d.simplified name) j ++ R) := by
    by_cases j_ne : j = 0
    · rwa [j_ne, Nat.cast_zero, powers_zero]
    · exact Poly.settled_sum sum settled (new j_ne) j
  refine inner.powers rfl rfl rfl ?_ i
  rw [List.map_append, List.mem_append, not_or]
  exact ⟨symbol_notMem_powers sum j, symbol⟩

theorem nodup_powers_append (base : b.isBase = true) (new : j ≠ 0 → b ∉ l.map fun f => f.divisorPower.1)
    (distinct : (l.map fun f => f.divisorPower.1).Nodup) :
    ((powers b j ++ l).map fun f => f.divisorPower.1).Nodup := by
  by_cases j_ne : j = 0
  · rwa [j_ne, Nat.cast_zero, powers_zero]
  · obtain ⟨f, listed, -, -⟩ := exists_powers base (q := j) (by exact_mod_cast j_ne)
    have entered := divisorBase_of_mem_powers base (listed ▸ List.mem_singleton_self f)
    rw [listed, List.singleton_append, List.map_cons, List.nodup_cons, entered]
    exact ⟨new j_ne, distinct⟩

/-- The bases that the exponents are entered under are different too. -/
theorem distinct_withPowers (sum : (d.simplified name).isSum = true)
    (symbol : var name ∉ R.map fun f => f.divisorPower.1)
    (new : j ≠ 0 → d.simplified name ∉ R.map fun f => f.divisorPower.1)
    (distinct : (R.map fun f => f.divisorPower.1).Nodup) (i : ℕ) :
    ((withPowers name i j d R).map fun f => f.divisorPower.1).Nodup := by
  have base := isBase_of_isSum sum
  refine nodup_powers_append rfl (fun _ => ?_) (nodup_powers_append base new distinct)
  rw [List.map_append, List.mem_append, not_or]
  refine ⟨fun member => ?_, symbol⟩
  obtain ⟨f, inside, same⟩ := List.mem_map.mp member
  rw [divisorBase_of_mem_powers base inside] at same
  rw [same] at sum
  cases sum

/-- Powers of a sum, but not the sum itself, and the exponential stand beside the symbol. -/
theorem isCofactor_powers (sum : (d.simplified name).isSum = true) (one_ne : j ≠ 1) :
    IsCofactor name (powers (d.simplified name) j ++ [expVar name]) where
  settled := by
    refine Poly.settled_sum sum (settled_expVar name) ?_ j
    rw [List.map_singleton, List.mem_singleton]
    intro same
    rw [same] at sum
    cases sum
  new := by
    rw [List.map_append, List.mem_append, not_or]
    exact ⟨symbol_notMem_powers sum j, by simp [expVar, asPower, euler]⟩
  noSum := by
    refine List.forall_mem_append.mpr ⟨?_, List.forall_mem_singleton.mpr rfl⟩
    by_cases j_ne : j = 0
    · rw [j_ne, Nat.cast_zero, powers_zero]
      exact List.forall_mem_nil _
    · rw [powers, if_neg (by exact_mod_cast j_ne), if_neg (by exact_mod_cast one_ne)]
      exact List.forall_mem_singleton.mpr rfl
  noDivisor := by
    refine List.forall_mem_append.mpr ⟨?_, List.forall_mem_singleton.mpr rfl⟩
    by_cases j_ne : j = 0
    · rw [j_ne, Nat.cast_zero, powers_zero]
      exact List.forall_mem_nil _
    · rw [powers, if_neg (by exact_mod_cast j_ne), if_neg (by exact_mod_cast one_ne)]
      simp [isDivisor]

theorem isCofactor_expVar (name : String) : IsCofactor name [expVar name] := by
  have cofactor := isCofactor_powers (j := 0) (isSum_falling name) (by decide)
  rwa [Nat.cast_zero, powers_zero] at cofactor

section Exponential
variable (name)

theorem isEntry_exp : ∀ f ∈ [expVar name], IsEntry f := List.forall_mem_singleton.mpr (isEntry_expVar name)

theorem positive_exp : ∀ f ∈ [expVar name], 0 < f.divisorPower.2 := List.forall_mem_singleton.mpr one_pos

theorem kept_exp (limit depth : ℕ) : ∀ f ∈ [expVar name], normalizeWithin limit depth f = f :=
  List.forall_mem_singleton.mpr (normalizeWithin_expVar limit depth name)

end Exponential

section Sum
variable (sum : (d.simplified name).isSum = true)
include sum

theorem settled_powers_exp (i j : ℕ) : Settled (withPowers name i j d [expVar name]) := by
  apply settled_withPowers sum (by simp [expVar, asPower, euler]) _ (settled_expVar name)
  intro _ member
  rw [List.mem_singleton.mp member] at sum
  cases sum

theorem distinct_powers_exp (i j : ℕ) :
    ((withPowers name i j d [expVar name]).map fun f => f.divisorPower.1).Nodup := by
  have single : ([expVar name].map fun f => f.divisorPower.1).Nodup := List.nodup_singleton _
  apply distinct_withPowers sum (by simp [expVar, divisorPower]) _ single
  intro _ member
  rw [List.mem_singleton.mp member] at sum
  cases sum

/-- A power of the sum with an exponent other than one is no sum, so the coefficient meets none. -/
theorem staysFactored_toExpr {t : Exponents} (one_ne : j ≠ 1) (c_ne : c ≠ 0)
    (perm : t.Perm ((withPowers name i j d [expVar name]).map divisorPower)) :
    StaysFactored name (t.toExpr c) := by
  have cofactor := isCofactor_powers sum one_ne
  have settled := settled_powers_exp sum i j
  have listed : withPowers name i j d [expVar name] =
      factored name i (powers (d.simplified name) j ++ [expVar name]) [] := by
    rw [factored, List.map_nil, List.append_nil]
    rfl
  rw [Exponents.toExpr_entered (isEntry_withPowers sum j (isEntry_exp name)) perm
    (fun f member => (positive_withPowers sum j (positive_exp name) f member).ne') settled.toIndependent
    c_ne (.inr (List.forall_mem_append.mpr ⟨fun f => isSum_powers_var, cofactor.noSum⟩)), listed]
  exact .plain cofactor (by simp) (listed ▸ settled) c_ne

end Sum

/-- A linear sum among the factors. -/
def withSum (name : String) (i j : ℕ) (d : Poly) (a b : Rat) : List Expr :=
  withPowers name i j d [(linear a b).simplified name, expVar name]

section Linear
variable {b : Rat} (a_ne : a ≠ 0) (b_ne : b ≠ 0)
include a_ne b_ne

theorem isEntry_sum_exp : ∀ f ∈ [(linear a b).simplified name, expVar name], IsEntry f :=
  List.forall_mem_cons.mpr ⟨isEntry_of_isBase (isBase_of_isSum (isSum_linear a_ne b_ne name)), isEntry_exp name⟩

theorem divisorPower_linear (name : String) :
    ((linear a b).simplified name).divisorPower = ((linear a b).simplified name, 1) := by
  have sum := isSum_linear a_ne b_ne name
  generalize (linear a b).simplified name = s at sum
  cases s <;> first | rfl | cases sum

theorem positive_sum_exp : ∀ f ∈ [(linear a b).simplified name, expVar name], 0 < f.divisorPower.2 := by
  refine List.forall_mem_cons.mpr ⟨?_, positive_exp name⟩
  rw [divisorPower_linear a_ne b_ne]
  exact one_pos

theorem settled_sum_exp : Settled [(linear a b).simplified name, expVar name] := by
  have sum := isSum_linear a_ne b_ne name
  have settled := Poly.settled_sum sum (settled_expVar name) (by
    rw [List.map_singleton, List.mem_singleton]
    intro same
    rw [same] at sum
    cases sum) 1
  rwa [powers_one] at settled

omit a_ne b_ne in
theorem kept_sum_exp (limit depth : ℕ) :
    ∀ f ∈ [(linear a b).simplified name, expVar name], normalizeWithin limit depth f = f :=
  List.forall_mem_cons.mpr ⟨normalizeWithin_simplified limit depth name _, kept_exp name limit depth⟩

variable (sum : (d.simplified name).isSum = true) (different : j ≠ 0 → d ≠ linear a b)
include sum different

theorem settled_withSum (i : ℕ) : Settled (withSum name i j d a b) := by
  have sum' := isSum_linear a_ne b_ne name
  have base := asPower_of_isBase (isBase_of_isSum sum')
  apply settled_withPowers sum _ _ (settled_sum_exp a_ne b_ne) i
  · rw [List.map_cons, base, List.map_singleton, List.mem_pair]
    rintro (same | same)
    · change var name = (linear a b).simplified name at same
      rw [← same] at sum'
      cases sum'
    · cases same
  · intro j_ne
    rw [List.map_cons, base, List.map_singleton, List.mem_pair]
    rintro (same | same)
    · exact different j_ne (Poly.simplified_injective name same)
    · rw [same] at sum
      cases sum

theorem distinct_withSum (i : ℕ) : ((withSum name i j d a b).map fun f => f.divisorPower.1).Nodup := by
  have sum' := isSum_linear a_ne b_ne name
  have listed : ([(linear a b).simplified name, expVar name].map fun f => f.divisorPower.1) =
      [(linear a b).simplified name, expVar name] := by
    rw [List.map_cons, divisorPower_linear a_ne b_ne]
    rfl
  apply distinct_withPowers sum <;> rw [listed]
  · rw [List.mem_pair]
    rintro (same | same)
    · rw [← same] at sum'
      cases sum'
    · cases same
  · rintro j_ne
    rw [List.mem_pair]
    rintro (same | same)
    · exact different j_ne (Poly.simplified_injective name same)
    · rw [same] at sum
      cases sum
  · rw [List.nodup_cons, List.mem_singleton]
    refine ⟨fun same => ?_, List.nodup_singleton _⟩
    rw [same] at sum'
    cases sum'

omit a_ne b_ne sum different in
theorem perm_withSum (name : String) (i j : ℕ) (d : Poly) (a b : Rat) : (withSum name i j d a b).Perm
    ((linear a b).simplified name :: withPowers name i j d [expVar name]) :=
  (List.perm_middle.append_left _).trans List.perm_middle

omit a_ne b_ne sum different in
theorem factored_perm (name : String) (i j : ℕ) (d p : Poly) :
    (factored name i (powers (d.simplified name) j ++ [expVar name]) [p]).Perm
      (p.simplified name :: withPowers name i j d [expVar name]) :=
  List.perm_append_singleton _ _

/-- One linear sum beside a power of another: the coefficient may be distributed over it. -/
theorem staysFactored_toExpr_sum {t : Exponents} (one_ne : j ≠ 1) (c_ne : c ≠ 0)
    (different' : j ≠ 0 → d ≠ linear (c * a) (c * b)) (unit : (c = 1 ∨ c = -1) ∨ b = 1 ∨ b = -1)
    (perm : t.Perm ((withSum name i j d a b).map divisorPower)) : StaysFactored name (t.toExpr c) := by
  have cofactor : IsCofactor name (powers (d.simplified name) j ++ [expVar name]) := isCofactor_powers sum one_ne
  have large : 3 ≤ totalSize (powers (d.simplified name) j ++ [expVar name]) := by
    rw [totalSize_append]
    exact Nat.le_add_left 3 _
  have rearranged := perm_withSum name i j d a b
  have ca_ne := mul_ne_zero c_ne a_ne
  have cb_ne := mul_ne_zero c_ne b_ne
  have settled := settled_withSum a_ne b_ne sum different i
  have settled' := settled_withSum ca_ne cb_ne sum different' i
  have rearranged' := perm_withSum name i j d (c * a) (c * b)
  have distributed : (const c).times ((linear a b).simplified name) =
      (linear (c * a) (c * b)).simplified name := by
    rw [Poly.const_times_simplified name _ c_ne, scale_linear]
  have nonzero : ∀ f ∈ withPowers name i j d [expVar name], f.divisorPower.2 ≠ 0 := fun f member =>
    (positive_withPowers sum j (positive_exp name) f member).ne'
  rcases Exponents.toExpr_entered_sum (isSum_linear a_ne b_ne name) (isSum_linear ca_ne cb_ne name)
    distributed (isEntry_withPowers sum j (isEntry_exp name))
    (List.forall_mem_append.mpr ⟨fun f => isSum_powers_var, cofactor.noSum⟩)
    (perm.trans (rearranged.map _)) nonzero (settled.perm rearranged).toIndependent
    (settled'.perm rearranged').toIndependent c_ne with kept | distributed
  · have listed := factored_perm name i j d (linear a b)
    rw [kept, ← multiple_perm listed]
    exact .sum cofactor large (settled.perm (rearranged.trans listed.symm)) a_ne b_ne c_ne unit
  · have listed := factored_perm name i j d (linear (c * a) (c * b))
    rw [distributed, ← multiple_perm listed]
    exact .sum cofactor large (settled'.perm (rearranged'.trans listed.symm)) ca_ne cb_ne one_ne_zero
      (.inl (.inl rfl))

end Linear

/-- Without another sum the normal form stays factored. -/
theorem staysFactored_without (limit depth i j : ℕ) (c_ne : c ≠ 0) :
    StaysFactored name (normalProduct (normalizeWithin limit depth)
      (multiple c (withPowers name i j falling [expVar name]))) := by
  have sum := isSum_falling name
  obtain ⟨a, unit, small, l, entered, product⟩ := normalProduct_withPowers limit depth i j
    (isEntry_exp name) (kept_exp name limit depth) (by simp [expVar]) c_ne
  have a_ne : a ≠ 0 := by rcases unit with rfl | rfl <;> decide
  have sum' := Poly.isSum_simplified_scale a_ne sum
  have positive := positive_withPowers (i := i) sum' j (positive_exp name)
  obtain ⟨t, perm, total⟩ := FactoredProduct.toNormal_of_exponents entered positive positive
    (distinct_powers_exp sum' i j) fun _ => rfl
  rw [product, total]
  by_cases one : j = 1
  · obtain rfl := one
    obtain rfl := small le_rfl
    rw [Poly.scale_one] at perm
    have listed : withPowers name i 1 falling [expVar name] = withSum name i 0 falling 1 (-1) := by
      rw [withSum, withPowers, withPowers, Nat.cast_one, powers_one, Nat.cast_zero, powers_zero]
      rfl
    rw [listed] at perm
    have none (h : 0 ≠ 0) : False := h rfl
    exact staysFactored_toExpr_sum one_ne_zero (by decide) sum (fun h => (none h).elim) zero_ne_one
      (by simpa using c_ne) (fun h => (none h).elim) (.inr (.inr rfl)) perm
  · exact staysFactored_toExpr sum' one (mul_ne_zero c_ne (pow_ne_zero j a_ne)) perm

section Sum
variable {b : Rat} (a_ne : a ≠ 0) (b_ne : b ≠ 0)
include a_ne b_ne

/-- Beside another sum, a power of `1 - x` with an exponent other than one stays factored. -/
theorem staysFactored_withSum (different : j ≠ 0 → falling ≠ linear a b) (limit depth i : ℕ)
    (one_ne : j ≠ 1) :
    StaysFactored name (normalProduct (normalizeWithin limit depth)
      (multiple 1 (withSum name i j falling a b))) := by
  have sum := isSum_falling name
  have new : pow (falling.simplified name) (const j) ∉ [(linear a b).simplified name, expVar name] := by
    have other := isSum_linear a_ne b_ne name
    rw [List.mem_pair]
    rintro (same | same)
    · rw [← same] at other
      cases other
    · cases same
  obtain ⟨s, unit, small, l, entered, normal⟩ := normalProduct_withPowers limit depth i j
    (isEntry_sum_exp a_ne b_ne) (kept_sum_exp limit depth) new one_ne_zero
  have s_ne : s ≠ 0 := by rcases unit with rfl | rfl <;> decide
  have sum' := Poly.isSum_simplified_scale s_ne sum
  have positive : ∀ f ∈ withSum name i j (falling.scale s) a b, 0 < f.divisorPower.2 :=
    positive_withPowers sum' j (positive_sum_exp a_ne b_ne)
  have power : s ^ j = 1 ∨ s ^ j = -1 := by
    rcases unit with rfl | rfl
    · exact .inl (one_pow j)
    · exact neg_one_pow_eq_or ℚ j
  rw [withSum, normal, one_mul]
  by_cases same : j ≠ 0 ∧ falling.scale s = linear a b
  · -- the sum is `x - 1`, and joins the power
    obtain ⟨j_ne, same⟩ := same
    have joined (base : Expr) : FactoredProduct.exponentAt (withSum name i j (falling.scale s) a b) base =
        FactoredProduct.exponentAt (withPowers name i (j + 1) (falling.scale s) [expVar name]) base := by
      have single : [(falling.scale s).simplified name, expVar name] =
          powers ((falling.scale s).simplified name) 1 ++ [expVar name] := by
        rw [powers_one]
        rfl
      simp only [withSum, withPowers, ← same, single, FactoredProduct.exponentAt_append,
        FactoredProduct.exponentAt_powers (isBase_of_isSum sum')]
      split
      · push_cast
        ring
      · ring
    obtain ⟨t, perm, product⟩ := FactoredProduct.toNormal_of_exponents entered positive
      (positive_withPowers sum' (j + 1) (positive_exp name)) (distinct_powers_exp sum' i (j + 1)) joined
    rw [product]
    exact staysFactored_toExpr sum' (by omega) (pow_ne_zero j s_ne) perm
  · have different' : j ≠ 0 → falling.scale s ≠ linear a b := fun j_ne equal => same ⟨j_ne, equal⟩
    obtain ⟨t, perm, product⟩ := FactoredProduct.toNormal_of_exponents entered positive positive
      (distinct_withSum a_ne b_ne sum' different' i) fun _ => rfl
    rw [product]
    refine staysFactored_toExpr_sum a_ne b_ne sum' different' one_ne (pow_ne_zero j s_ne) ?_ (.inl power) perm
    intro j_ne equal
    rw [← scale_linear] at equal
    rcases power with one | opposite
    · rw [one, Poly.scale_one] at equal
      exact different' j_ne equal
    · obtain rfl : s = -1 := unit.resolve_left fun one => by rw [one, one_pow] at opposite; cases opposite
      rw [opposite] at equal
      have twice := congrArg (fun p : Poly => p.scale (-1)) equal
      rw [Poly.scale_scale, Poly.scale_scale, neg_one_mul, neg_neg, Poly.scale_one, Poly.scale_one] at twice
      exact different j_ne twice

/-- Beside another sum, `1 - x` itself is kept too. -/
theorem normalProduct_two_sums (limit depth i : ℕ) (other : falling ≠ linear a b) :
    normalProduct (normalizeWithin limit depth) (multiple 1 (withSum name i 1 falling a b)) =
      multiple 1 (withSum name i 1 falling a b) := by
  have sum := isSum_falling name
  have sums : ∀ f ∈ [(linear a b).simplified name, expVar name], IsEntry f := isEntry_sum_exp a_ne b_ne
  have entries := isEntry_withPowers (i := i) sum 1 sums
  apply FactoredProduct.normalProduct_of_positive entries _ one_ne_zero
    (positive_withPowers sum 1 (positive_sum_exp a_ne b_ne))
    (distinct_withSum a_ne b_ne sum (fun _ => other) i)
    (settled_withSum a_ne b_ne sum (fun _ => other) i).toIndependent (.inl rfl)
  refine List.forall_mem_append.mpr ⟨normalizeWithin_powers limit depth name i, ?_⟩
  rw [Nat.cast_one, powers_one]
  exact List.forall_mem_cons.mpr
    ⟨normalizeWithin_simplified limit depth name falling, kept_sum_exp limit depth⟩

end Sum

end SymbolicAlgebra.Expr
