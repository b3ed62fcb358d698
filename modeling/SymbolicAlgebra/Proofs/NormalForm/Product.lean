import Mathlib.Algebra.BigOperators.Ring.List
import SymbolicAlgebra.NormalForm
import SymbolicAlgebra.Proofs.Arithmetic.Product

/-! Products on their way through the normal form: a multiple of powers is split into its
coefficient and its factors, the exponents of the factors are entered under their
bases, and the product is put together again. -/

namespace SymbolicAlgebra.Expr

variable {b e f : Expr} {l m : List Expr} {q : Rat}

section Split
variable (h : ∀ f ∈ l, f.isFactor = true)
include h

theorem splitQuotient_foldl_mul (start : e.splitQuotient = (1, m)) :
    (l.foldl mul e).splitQuotient = (1, m ++ l) := by
  induction l generalizing e m with
  | nil => rw [List.append_nil]; exact start
  | cons f rest ih =>
      obtain ⟨first, others⟩ := List.forall_mem_cons.mp h
      have single : f.splitQuotient = (1, [f]) := by
        cases f <;> first | rfl | cases first
      have extended : (mul e f).splitQuotient = (1, m ++ [f]) := by
        rw [splitQuotient, start, single]
        exact Prod.ext (mul_one 1) rfl
      rw [List.foldl_cons, ih others extended, List.append_assoc]
      rfl

theorem splitQuotient_product : (product l).splitQuotient = (1, l) := by
  cases l with
  | nil => rfl
  | cons f rest =>
      obtain ⟨first, others⟩ := List.forall_mem_cons.mp h
      have single : f.splitQuotient = (1, [f]) := by
        cases f <;> first | rfl | cases first
      exact splitQuotient_foldl_mul others single

/-- A multiple is split into the coefficient and the factors in their order. -/
theorem splitQuotient_multiple (q_ne : q ≠ 0) :
    (multiple q l).splitQuotient = (q, Sorting.sort le l) := by
  by_cases some_factor : l = []
  · rw [some_factor, multiple_nil]
    rfl
  have product : (sortedProduct l).splitQuotient = (1, Sorting.sort le l) := by
    rw [sortedProduct_eq (atoms h), splitQuotient_product (forall_mem_sort h)]
  obtain ⟨rfl, same⟩ | ⟨rfl, same⟩ | ⟨-, -, same⟩ := multiple_cases (isMonic h) q_ne some_factor
  · rw [same, product]
  · rw [same, splitQuotient, product]
  · have number : (const q).splitQuotient = (q, []) := rfl
    rw [same, splitQuotient, product, number]
    exact Prod.ext (mul_one q) rfl

end Split

/-- A power of a factor with a number as exponent, or the factor itself. -/
def hasNumberExponent : Expr → Bool
  | pow _ (const _) => true
  | pow _ _ => false
  | e => e.isFactor

/-- A factor that is entered under its base and comes back from its base. -/
structure IsEntry (f : Expr) : Prop where
  factor : f.isFactor = true
  number : f.hasNumberExponent = true
  powers : powers f.divisorPower.1 f.divisorPower.2 = [f]
  raised : f.divisorPower.1.raise (const f.divisorPower.2) = f

theorem isEntry_of_isBase (base : b.isBase = true) : IsEntry b := by
  have entered : b.divisorPower = (b, 1) := by
    cases b <;> first | rfl | cases base
  refine ⟨isFactor_of_isBase base, ?_, ?_, ?_⟩
  · cases b <;> first | rfl | cases base
  · rw [entered, powers_one]
  · rw [entered, raise_of_isBase base]
    exact (if_neg one_ne_zero).trans (if_pos rfl)

theorem isEntry_pow (base : b.isBase = true) (q_ne : q ≠ 0) (one_ne : q ≠ 1) :
    IsEntry (pow b (const q)) where
  factor := rfl
  number := rfl
  powers := (if_neg q_ne).trans (if_neg one_ne)
  raised := (raise_of_isBase base q).trans ((if_neg q_ne).trans (if_neg one_ne))

theorem isEntry_powers (base : b.isBase = true) (k : Rat) : ∀ f ∈ powers b k, IsEntry f := by
  unfold powers
  split
  · exact List.forall_mem_nil _
  next k_ne =>
    split
    · exact List.forall_mem_singleton.mpr (isEntry_of_isBase base)
    next one_ne => exact List.forall_mem_singleton.mpr (isEntry_pow base k_ne one_ne)

theorem divisorPower_powers (base : b.isBase = true) (q_ne : q ≠ 0) :
    (powers b q).map divisorPower = [(b, q)] := by
  rw [powers, if_neg q_ne]
  split
  next one =>
    rw [List.map_singleton, one]
    cases b <;> first | rfl | cases base
  next => rfl

end SymbolicAlgebra.Expr

namespace SymbolicAlgebra.FactoredProduct
open SymbolicAlgebra.Expr

variable {f : Expr} {l : List Expr} {q : Rat}

/-- Enter a factor under its base. -/
def enter (exponents : Exponents) (f : Expr) : Exponents :=
  exponents.add cmp f.divisorPower.1 f.divisorPower.2

theorem mulFactor_eq (h : f.hasNumberExponent = true) (p : FactoredProduct) :
    p.mulFactor f = { p with exponents := enter p.exponents f } := by
  cases f with
  | pow b k => cases k <;> first | rfl | cases h
  | _ => first | rfl | cases h

theorem foldl_mulFactor (h : ∀ f ∈ l, f.hasNumberExponent = true) (p : FactoredProduct) :
    l.foldl mulFactor p = { p with exponents := l.foldl enter p.exponents } := by
  induction l generalizing p with
  | nil => rfl
  | cons f rest ih =>
      obtain ⟨first, others⟩ := List.forall_mem_cons.mp h
      rw [List.foldl_cons, mulFactor_eq first, ih others]
      rfl

/-- To multiply by a multiple its coefficient is multiplied and its factors are entered. -/
theorem mulExpr_multiple (h : ∀ f ∈ l, f.isFactor = true) (k : ∀ f ∈ l, f.hasNumberExponent = true)
    (q_ne : q ≠ 0) (p : FactoredProduct) : p.mulExpr (multiple q l) =
      { p with coeff := p.coeff * q, exponents := (Sorting.sort le l).foldl enter p.exponents } := by
  rw [mulExpr, splitQuotient_multiple h q_ne]
  exact foldl_mulFactor (forall_mem_sort k) _

/-- Factors with new bases are entered one after the other. -/
theorem foldl_enter_perm {exponents : Exponents}
    (distinct : (exponents.map Prod.fst ++ l.map fun f => f.divisorPower.1).Nodup) :
    (l.foldl enter exponents).Perm (exponents ++ l.map divisorPower) := by
  induction l generalizing exponents with
  | nil => rw [List.map_nil, List.append_nil]; exact .refl _
  | cons f rest ih =>
      have new : ∀ entry ∈ exponents, entry.1 ≠ f.divisorPower.1 := by
        intro entry member
        exact (List.nodup_append.mp distinct).2.2 _ (List.mem_map_of_mem member) _ List.mem_cons_self
      have entered : (enter exponents f).Perm (exponents ++ [f.divisorPower]) :=
        (Tally.add_perm_of_new new).trans (List.perm_append_singleton _ _).symm
      have still : ((enter exponents f).map Prod.fst ++ rest.map fun f => f.divisorPower.1).Nodup := by
        rw [((entered.map Prod.fst).append_right _).nodup_iff]
        simpa using distinct
      have all := (ih still).trans (entered.append_right (rest.map divisorPower))
      rwa [List.append_assoc, List.singleton_append] at all

theorem foldl_enter_eq (l : List Expr) : l.foldl enter [] = Tally.ofList cmp (l.reverse.map divisorPower) := by
  rw [List.foldl_eq_foldr_reverse, Tally.ofList, List.foldr_map]
  rfl

/-- The exponent that a list of factors has under a base. -/
def exponentAt (l : List Expr) (base : Expr) : Rat :=
  (l.map fun f => if f.divisorPower.1 = base then f.divisorPower.2 else 0).sum

@[simp] theorem exponentAt_append (l m : List Expr) (base : Expr) :
    exponentAt (l ++ m) base = exponentAt l base + exponentAt m base := by
  rw [exponentAt, List.map_append, List.sum_append, exponentAt, exponentAt]

theorem exponentAt_powers {b : Expr} (base : b.isBase = true) (k : Rat) (other : Expr) :
    exponentAt (powers b k) other = if b = other then k else 0 := by
  by_cases k_ne : k = 0
  · rw [k_ne, powers_zero, ite_self]
    rfl
  · have entered : exponentAt (powers b k) other =
        (((powers b k).map divisorPower).map fun p => if p.1 = other then p.2 else 0).sum := by
      rw [exponentAt, List.map_map]
      rfl
    rw [entered, divisorPower_powers base k_ne, List.map_singleton, List.sum_singleton]

/-- Positive powers of different bases are entered in the end, if their exponents are. -/
theorem foldl_enter_of_exponents {m : List Expr} (positive : ∀ f ∈ l, 0 < f.divisorPower.2)
    (positive' : ∀ f ∈ m, 0 < f.divisorPower.2) (distinct : (m.map fun f => f.divisorPower.1).Nodup)
    (same : ∀ base, exponentAt l base = exponentAt m base) :
    (l.foldl enter []).Perm (m.map divisorPower) := by
  have listed : Tally.ofList cmp (l.reverse.map divisorPower) = Tally.ofList cmp (m.map divisorPower) := by
    apply Tally.ofList_eq_of_totals
    · exact List.forall_mem_map.mpr fun f member => positive f (List.mem_reverse.mp member)
    · exact List.forall_mem_map.mpr positive'
    · intro base
      rw [List.map_map, List.map_map, List.map_reverse, List.sum_reverse]
      exact same base
  rw [foldl_enter_eq, listed]
  exact Tally.ofList_perm (by rwa [List.map_map])

theorem pos_of_mem_foldl_enter (positive : ∀ f ∈ l, 0 < f.divisorPower.2) :
    ∀ entry ∈ l.foldl enter [], 0 < entry.2 := by
  rw [foldl_enter_eq]
  apply Tally.pos_of_mem_ofList
  exact List.forall_mem_map.mpr fun f member => positive f (List.mem_reverse.mp member)

end SymbolicAlgebra.FactoredProduct

namespace SymbolicAlgebra.Exponents
open SymbolicAlgebra.Expr

variable {c : Rat} {l : List Expr} {t : Exponents}

/-- The powers of which exponents are the list. -/
def factors (t : Exponents) : List Expr := t.flatMap fun entry => powers entry.1 entry.2

/-- Multiply by the power that an entry stands for. -/
def timesPower (product : Expr) (entry : Expr × Rat) : Expr :=
  product.times (entry.1.raise (.const entry.2))

theorem toExpr_eq (c_ne : c ≠ 0) (t : Exponents) :
    t.toExpr c = (t.filter fun entry => entry.2 ≠ 0).foldl timesPower (.const c) := by
  rw [toExpr, if_neg c_ne]
  rfl

/-- Each entry stands for the power of a base that is raised as it is. -/
def Raised (t : Exponents) : Prop :=
  ∀ entry ∈ t, entry.1.raise (.const entry.2) = multiple 1 (powers entry.1 entry.2)

theorem factors_map_divisorPower (entries : ∀ f ∈ l, IsEntry f) : factors (l.map divisorPower) = l := by
  induction l with
  | nil => rfl
  | cons f rest ih =>
      obtain ⟨first, others⟩ := List.forall_mem_cons.mp entries
      rw [List.map_cons, factors, List.flatMap_cons, first.powers]
      exact congrArg (f :: ·) (ih others)

theorem raised_map_divisorPower (entries : ∀ f ∈ l, IsEntry f) : Raised (l.map divisorPower) := by
  intro entry member
  obtain ⟨f, listed, rfl⟩ := List.mem_map.mp member
  have entry := entries f listed
  rw [entry.raised, entry.powers, multiple_one_singleton entry.factor]

theorem foldl_timesPower (raised : Raised t) (h : Independent (l ++ factors t)) (some_factor : l ≠ [])
    (c : Rat) : t.foldl timesPower (multiple c l) = multiple c (l ++ factors t) := by
  induction t generalizing l with
  | nil => exact congrArg (multiple c) (List.append_nil l).symm
  | cons entry rest ih =>
      obtain ⟨first, others⟩ := List.forall_mem_cons.mp raised
      have split : l ++ factors (entry :: rest) = l ++ powers entry.1 entry.2 ++ factors rest := by
        rw [factors, List.flatMap_cons, List.append_assoc]
        rfl
      rw [split] at h ⊢
      have plain : MultipliesPlainly (multiple c l) (multiple 1 (powers entry.1 entry.2)) := by
        refine ⟨fun _ => multiplier?_multiple h.left.left.factor some_factor c, fun _ => ?_⟩
        by_cases empty : powers entry.1 entry.2 = []
        · rw [empty, multiple_nil]
          rfl
        · exact multiplier?_multiple h.left.right.factor empty 1
      rw [List.foldl_cons, timesPower, first, times_independent h.left plain, mul_one]
      exact ih others h (by simp [some_factor])

/-- The product of powers of different bases, if the coefficient does not meet a sum. -/
theorem toExpr_multiple (raised : Raised t) (c_ne : c ≠ 0) (nonzero : ∀ entry ∈ t, entry.2 ≠ 0)
    (h : Independent (factors t))
    (plain : ∀ entry ∈ t.head?, (multiple 1 (powers entry.1 entry.2)).isSum = true → c = 1) :
    t.toExpr c = multiple c (factors t) := by
  have all : (t.filter fun entry => entry.2 ≠ 0) = t := by
    apply List.filter_eq_self.mpr
    intro entry member
    exact decide_eq_true (nonzero entry member)
  rw [toExpr_eq c_ne, all]
  cases t with
  | nil => exact (multiple_nil c).symm
  | cons entry rest =>
      obtain ⟨first, others⟩ := List.forall_mem_cons.mp raised
      have split : factors (entry :: rest) = powers entry.1 entry.2 ++ factors rest := List.flatMap_cons
      rw [split] at h ⊢
      have start := const_times_multiple h.left c 1 fun sum => by
        rw [plain entry rfl sum]
        rfl
      rw [List.foldl_cons, timesPower, first, start, mul_one]
      exact foldl_timesPower others h (powers_ne_nil (nonzero entry List.mem_cons_self)) c

/-- The product of factors that were entered, in whatever order, if the coefficient does
not meet a sum. -/
theorem toExpr_entered (entries : ∀ f ∈ l, IsEntry f) (perm : t.Perm (l.map divisorPower))
    (nonzero : ∀ f ∈ l, f.divisorPower.2 ≠ 0) (h : Independent l) (c_ne : c ≠ 0)
    (plain : c = 1 ∨ ∀ f ∈ l, f.isSum = false) : t.toExpr c = multiple c l := by
  have listed : (factors t).Perm l := by
    conv_rhs => rw [← factors_map_divisorPower entries]
    exact perm.flatMap_right _
  have raised : Raised t := fun entry member =>
    raised_map_divisorPower entries entry (perm.mem_iff.mp member)
  have nonzero' : ∀ entry ∈ t, entry.2 ≠ 0 := by
    intro entry member
    obtain ⟨f, listed, rfl⟩ := List.mem_map.mp (perm.mem_iff.mp member)
    exact nonzero f listed
  rw [toExpr_multiple raised c_ne nonzero' (h.perm listed.symm), multiple_perm listed]
  intro entry head sum
  rcases plain with one | noSum
  · exact one
  · obtain ⟨f, member, rfl⟩ := List.mem_map.mp (perm.mem_iff.mp (List.mem_of_mem_head? head))
    have entry := entries f member
    rw [entry.powers, multiple_one_singleton entry.factor, noSum f member] at sum
    cases sum

/-- The coefficient meets the sum first, or it meets another factor. -/
theorem toExpr_entered_sum {s s' : Expr} (sum : s.isSum = true) (sum' : s'.isSum = true)
    (distributed : (Expr.const c).times s = s') (entries : ∀ f ∈ l, IsEntry f)
    (noSum : ∀ f ∈ l, f.isSum = false) (perm : t.Perm ((s :: l).map divisorPower))
    (nonzero : ∀ f ∈ l, f.divisorPower.2 ≠ 0) (h : Independent (s :: l)) (h' : Independent (s' :: l))
    (c_ne : c ≠ 0) : t.toExpr c = multiple c (s :: l) ∨ t.toExpr c = multiple 1 (s' :: l) := by
  have entry_sum := isEntry_of_isBase (isBase_of_isSum sum)
  have all : ∀ f ∈ s :: l, IsEntry f := List.forall_mem_cons.mpr ⟨entry_sum, entries⟩
  have power : s.divisorPower = (s, 1) := by
    cases s <;> first | rfl | cases sum
  have nonzero : ∀ f ∈ s :: l, f.divisorPower.2 ≠ 0 := by
    refine List.forall_mem_cons.mpr ⟨?_, nonzero⟩
    rw [power]
    exact one_ne_zero
  have listed : (factors t).Perm (s :: l) := by
    conv_rhs => rw [← factors_map_divisorPower all]
    exact perm.flatMap_right _
  have raised : Raised t := fun entry member => raised_map_divisorPower all entry (perm.mem_iff.mp member)
  have nonzero' : ∀ entry ∈ t, entry.2 ≠ 0 := by
    intro entry member
    obtain ⟨f, listed, rfl⟩ := List.mem_map.mp (perm.mem_iff.mp member)
    exact nonzero f listed
  cases t with
  | nil => cases perm.nil_eq
  | cons entry rest =>
      obtain ⟨f, member, rfl⟩ := List.mem_map.mp (perm.mem_iff.mp List.mem_cons_self)
      rcases List.mem_cons.mp member with rfl | member
      · right
        have others : rest.Perm (l.map divisorPower) := perm.cons_inv
        have remaining : (factors rest).Perm l := by
          conv_rhs => rw [← factors_map_divisorPower entries]
          exact others.flatMap_right _
        have kept : ((f.divisorPower :: rest).filter fun entry => entry.2 ≠ 0) = f.divisorPower :: rest :=
          List.filter_eq_self.mpr fun entry member => decide_eq_true (nonzero' entry member)
        have first : timesPower (.const c) f.divisorPower = multiple 1 [s'] := by
          rw [timesPower, entry_sum.raised, distributed,
            multiple_one_singleton (isFactor_of_isBase (isBase_of_isSum sum'))]
        have independent : Independent ([s'] ++ factors rest) := h'.perm (remaining.symm.cons s')
        rw [toExpr_eq c_ne, kept, List.foldl_cons, first,
          foldl_timesPower (List.forall_mem_cons.mp raised).2 independent (List.cons_ne_nil _ _)]
        exact multiple_perm (remaining.cons s')
      · left
        rw [toExpr_multiple raised c_ne nonzero' (h.perm listed.symm), multiple_perm listed]
        intro entry head sum
        obtain rfl := Option.some.inj head
        have entry := entries f member
        rw [entry.powers, multiple_one_singleton entry.factor, noSum f member] at sum
        cases sum

end SymbolicAlgebra.Exponents

namespace SymbolicAlgebra.FactoredProduct
open SymbolicAlgebra.Expr

/-- A number times powers, entered one after the other. -/
def ofPowers (q : Rat) (l : List Expr) : FactoredProduct := ⟨q, l.foldl enter [], []⟩

/-- The expression of a product of powers, in lowest terms. -/
def toNormal (p : FactoredProduct) : Expr := p.cancelled?.getD (p.exponents.toExpr p.coeff)

variable {next : Expr → Expr} {coeff : Expr → Rat} {image : Expr → Expr}
  {l m u v : List Expr} {q : Rat}

/-- The factors become multiples of powers: their coefficients are multiplied and the
powers are entered. -/
theorem foldl_mulExpr (shape : ∀ f ∈ l, next f = multiple (coeff f) [image f])
    (coeff_ne : ∀ f ∈ l, coeff f ≠ 0) (factor : ∀ f ∈ l, (image f).isFactor = true)
    (number : ∀ f ∈ l, (image f).hasNumberExponent = true) (p : FactoredProduct) :
    l.foldl (fun product f => product.mulExpr (next f)) p =
      { p with
        coeff := p.coeff * (l.map coeff).prod
        exponents := (l.map image).foldl enter p.exponents } := by
  induction l generalizing p with
  | nil =>
      rw [List.map_nil, List.prod_nil, mul_one]
      rfl
  | cons f rest ih =>
      obtain ⟨first, others⟩ := List.forall_mem_cons.mp shape
      obtain ⟨first_ne, others_ne⟩ := List.forall_mem_cons.mp coeff_ne
      obtain ⟨first_factor, others_factor⟩ := List.forall_mem_cons.mp factor
      obtain ⟨first_number, others_number⟩ := List.forall_mem_cons.mp number
      rw [List.foldl_cons, first, mulExpr_multiple (List.forall_mem_singleton.mpr first_factor)
        (List.forall_mem_singleton.mpr first_number) first_ne, ih others others_ne others_factor others_number]
      simp only [List.map_cons, List.prod_cons, List.foldl_cons, mul_assoc]
      rfl

theorem coeff_prod_ne_zero (coeff_ne : ∀ f ∈ l, coeff f ≠ 0) : (l.map coeff).prod ≠ 0 := by
  apply List.prod_ne_zero
  intro zero_mem
  obtain ⟨f, member, vanishes⟩ := List.mem_map.mp zero_mem
  exact coeff_ne f member vanishes

/-- The normal form of a product from the multiples that its factors become, which are
entered in some order. -/
theorem normalProduct_multiple (next : Expr → Expr) (coeff : Expr → Rat) (image : Expr → Expr)
    (factor : ∀ f ∈ l, f.isFactor = true) (q_ne : q ≠ 0)
    (shape : ∀ f ∈ l, next f = multiple (coeff f) [image f]) (coeff_ne : ∀ f ∈ l, coeff f ≠ 0)
    (factor' : ∀ f ∈ l, (image f).isFactor = true)
    (number : ∀ f ∈ l, (image f).hasNumberExponent = true) :
    ∃ m : List Expr, m.Perm (l.map image) ∧
      normalProduct next (multiple q l) = (ofPowers (q * (l.map coeff).prod) m).toNormal := by
  have perm := Sorting.sort_perm le l
  have folded : (Sorting.sort le l).foldl (fun product f => product.mulExpr (next f)) (ofCoeff q) =
      ofPowers (q * ((Sorting.sort le l).map coeff).prod) ((Sorting.sort le l).map image) :=
    foldl_mulExpr (forall_mem_sort shape) (forall_mem_sort coeff_ne) (forall_mem_sort factor')
      (forall_mem_sort number) (ofCoeff q)
  rw [(perm.map coeff).prod_eq] at folded
  have coeff_ne : (ofPowers (q * (l.map coeff).prod) ((Sorting.sort le l).map image)).coeff ≠ 0 :=
    mul_ne_zero q_ne (coeff_prod_ne_zero coeff_ne)
  refine ⟨_, perm.map image, ?_⟩
  rw [normalProduct, splitQuotient_multiple factor q_ne]
  dsimp only
  rw [folded, if_neg coeff_ne]
  rfl

/-- Factors that are their own normal forms are entered as they are. -/
theorem normalProduct_kept (factor : ∀ f ∈ l, f.isFactor = true)
    (number : ∀ f ∈ l, f.hasNumberExponent = true) (kept : ∀ f ∈ l, next f = f) (q_ne : q ≠ 0) :
    ∃ m : List Expr, m.Perm l ∧ normalProduct next (multiple q l) = (ofPowers q m).toNormal := by
  have single : ∀ f ∈ l, next f = multiple 1 [id f] := by
    intro f member
    rw [kept f member, id, multiple_one_singleton (factor f member)]
  have entered := normalProduct_multiple next (fun _ => 1) id factor q_ne single (fun _ _ => one_ne_zero)
    factor number
  simpa using entered

/-- One factor becomes a multiple of a power, and the others are their own normal forms. -/
theorem normalProduct_rewritten {g g' : Expr} {a : Rat} (new : g ∉ u ++ v)
    (factor : ∀ f ∈ u ++ g :: v, f.isFactor = true) (q_ne : q ≠ 0) (a_ne : a ≠ 0)
    (kept : ∀ f ∈ u ++ v, next f = f) (rewritten : next g = multiple a [g'])
    (factor' : ∀ f ∈ u ++ g' :: v, f.isFactor = true)
    (number : ∀ f ∈ u ++ g' :: v, f.hasNumberExponent = true) :
    ∃ m : List Expr, m.Perm (u ++ g' :: v) ∧
      normalProduct next (multiple q (u ++ g :: v)) = (ofPowers (q * a) m).toNormal := by
  have outside {f : Expr} (member : f ∈ u ++ v) : f ≠ g := fun same => new (same ▸ member)
  have unchanged {α : Type} {l : List Expr} (inside : l ⊆ u ++ v) (F : Expr → α) (y : α) :
      l.map (Function.update F g y) = l.map F :=
    List.map_congr_left fun f member => Function.update_of_ne (outside (inside member)) y F
  have left : u ⊆ u ++ v := List.subset_append_left u v
  have right : v ⊆ u ++ v := List.subset_append_right u v
  have images : (u ++ g :: v).map (Function.update id g g') = u ++ g' :: v := by
    rw [List.map_append, List.map_cons, unchanged left, unchanged right, Function.update_self, List.map_id,
      List.map_id]
  have coefficient : ((u ++ g :: v).map (Function.update (fun _ => (1 : Rat)) g a)).prod = a := by
    rw [List.map_append, List.map_cons, unchanged left, unchanged right, Function.update_self]
    simp
  have shape : ∀ f ∈ u ++ g :: v,
      next f = multiple (Function.update (fun _ => (1 : Rat)) g a f) [Function.update id g g' f] := by
    intro f member
    rcases List.mem_cons.mp (List.perm_middle.mem_iff.mp member) with rfl | other
    · rw [Function.update_self, Function.update_self, rewritten]
    · rw [Function.update_of_ne (outside other), Function.update_of_ne (outside other), kept f other, id,
        multiple_one_singleton (factor f member)]
  have coeff_ne : ∀ f ∈ u ++ g :: v, Function.update (fun _ => (1 : Rat)) g a f ≠ 0 := by
    intro f _
    rw [Function.update_apply]
    split
    · exact a_ne
    · exact one_ne_zero
  have image {P : Expr → Prop} (h : ∀ f ∈ u ++ g' :: v, P f) :
      ∀ f ∈ u ++ g :: v, P (Function.update id g g' f) :=
    List.forall_mem_map.mp (images ▸ h)
  have entered := normalProduct_multiple next _ _ factor q_ne shape coeff_ne (image factor') (image number)
  rwa [images, coefficient] at entered

theorem cancelled?_of_positive {p : FactoredProduct} (positive : ∀ entry ∈ p.exponents, 0 < entry.2) :
    p.cancelled? = none := by
  have none_divides : p.divisors = [] := by
    rw [divisors, List.map_eq_nil_iff, List.filter_eq_nil_iff]
    intro entry member
    have := positive entry member
    simp [this.le]
  rw [cancelled?, none_divides]
  rfl

/-- Without a divisor there is nothing to cancel. -/
theorem toNormal_ofPowers (positive : ∀ f ∈ l, 0 < f.divisorPower.2) :
    (ofPowers q l).toNormal = (ofPowers q l).exponents.toExpr q := by
  rw [toNormal, cancelled?_of_positive (pos_of_mem_foldl_enter positive)]
  rfl

/-- Of positive powers what counts is the exponents that they have in all. -/
theorem toNormal_of_exponents (perm : l.Perm u) (positive : ∀ f ∈ u, 0 < f.divisorPower.2)
    (positive' : ∀ f ∈ m, 0 < f.divisorPower.2) (distinct : (m.map fun f => f.divisorPower.1).Nodup)
    (same : ∀ base, exponentAt u base = exponentAt m base) :
    ∃ t : Exponents, t.Perm (m.map divisorPower) ∧ (ofPowers q l).toNormal = t.toExpr q := by
  have positive : ∀ f ∈ l, 0 < f.divisorPower.2 := fun f member => positive f (perm.mem_iff.mp member)
  have same (base : Expr) : exponentAt l base = exponentAt m base := by
    rw [← same, exponentAt, exponentAt, (perm.map _).sum_eq]
  exact ⟨_, foldl_enter_of_exponents positive positive' distinct same, toNormal_ofPowers positive⟩

/-- Positive powers of different bases that are their own normal forms stay a product. -/
theorem normalProduct_of_positive (entries : ∀ f ∈ l, IsEntry f) (kept : ∀ f ∈ l, next f = f)
    (q_ne : q ≠ 0) (positive : ∀ f ∈ l, 0 < f.divisorPower.2)
    (distinct : (l.map fun f => f.divisorPower.1).Nodup) (h : Independent l)
    (plain : q = 1 ∨ ∀ f ∈ l, f.isSum = false) : normalProduct next (multiple q l) = multiple q l := by
  obtain ⟨m, perm, product⟩ := normalProduct_kept (fun f member => (entries f member).factor)
    (fun f member => (entries f member).number) kept q_ne
  obtain ⟨t, entered, total⟩ := toNormal_of_exponents perm positive positive distinct fun _ => rfl
  rw [product, total]
  exact Exponents.toExpr_entered entries entered (fun f member => (positive f member).ne') h q_ne plain

end SymbolicAlgebra.FactoredProduct

namespace SymbolicAlgebra.Expr

variable {e : Expr} {l : List Expr} {q : Rat} {limit depth : Nat}

theorem normalizeWithin_mul {a b : Expr} (small : (mul a b).size ≤ limit) :
    normalizeWithin limit (depth + 1) (mul a b) = normalProduct (normalizeWithin limit depth) (mul a b) := by
  rw [normalizeWithin, normalLevel, if_neg (Nat.not_lt.mpr small)]

/-- A coefficient other than one and minus one makes a product even of one factor. -/
theorem normalizeWithin_scaled (h : ∀ f ∈ l, f.isFactor = true) (some_factor : l ≠ []) (q_ne : q ≠ 0)
    (one_ne : q ≠ 1) (opposite_ne : q ≠ -1) (small : (multiple q l).size ≤ limit) :
    normalizeWithin limit (depth + 1) (multiple q l) =
      normalProduct (normalizeWithin limit depth) (multiple q l) := by
  obtain ⟨one, -⟩ | ⟨opposite, -⟩ | ⟨-, -, same⟩ := multiple_cases (isMonic h) q_ne some_factor
  · exact absurd one one_ne
  · exact absurd opposite opposite_ne
  · rw [same] at small ⊢
    rw [normalizeWithin_mul small]

/-- A small product goes through its factors, under the sign if the coefficient is minus one. -/
theorem normalizeWithin_multiple (h : ∀ f ∈ l, f.isFactor = true) (two : 2 ≤ l.length) (q_ne : q ≠ 0)
    (small : (multiple q l).size ≤ limit) : normalizeWithin limit (depth + 2) (multiple q l) =
      if q = -1 then (normalProduct (normalizeWithin limit depth) (multiple 1 l)).negate
      else normalProduct (normalizeWithin limit (depth + 1)) (multiple q l) := by
  have some_factor : l ≠ [] := by
    rintro rfl
    cases two
  obtain ⟨a, b, shape⟩ := exists_mul_of_two_factors h two
  obtain ⟨rfl, same⟩ | ⟨rfl, same⟩ | ⟨one_ne, opposite_ne, -⟩ := multiple_cases (isMonic h) q_ne some_factor
  · rw [same, shape] at small ⊢
    rw [if_neg (by decide), normalizeWithin_mul small]
  · rw [same, shape] at small
    have inner : (mul a b).size ≤ limit := by
      rw [size] at small
      omega
    rw [if_pos rfl, multiple_one (isMonic h), same, shape, normalizeWithin, normalLevel,
      if_neg (Nat.not_lt.mpr small), normalizeWithin_mul inner]
  · rw [if_neg opposite_ne, normalizeWithin_scaled h some_factor q_ne one_ne opposite_ne small]

end SymbolicAlgebra.Expr
