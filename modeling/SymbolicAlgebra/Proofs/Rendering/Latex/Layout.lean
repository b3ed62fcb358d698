import SymbolicAlgebra.Proofs.Rendering.Latex.Parts
import SymbolicAlgebra.Proofs.Rendering.Latex.Reader

/-! The layouts of a level, given that the writer of the next level fits: what is written
of numbers, sums, products and powers shows their values, with parentheses wherever the
place asks for them. -/

namespace SymbolicAlgebra.Latex
open Grammar
open SymbolicAlgebra.Expr

/-- The rule that a place asks for. A sum may stand without parentheses in a loose place. -/
def placeLevel (bare : Bool) (place : Nat) : Level :=
  if place ≤ inSum then if bare then .sum else .product
  else if place ≤ inPower then .product
  else .primary

variable {K : Type*} [Field K] [DecidableEq K]

/-- The texts of an expression show its value in every place. -/
structure Fits (S : Semantics K) (bare : Bool) (place : Nat → String) (x : K) : Prop where
  written : ∀ n, Written S (placeLevel bare n) (place n) x
  opens : ∀ n, inSum < n → Opens (place n)

variable {S : Semantics K} {bare : Bool} {level : Level} {text : String} {x y : K} {limit : Nat}

theorem placeLevel_rank_le {n : Nat} (le : n ≤ inPower) : (placeLevel bare n).rank ≤ Level.product.rank := by
  rw [placeLevel, if_pos le]
  cases bare <;> split <;> decide

/-- Parentheses carry a text to every place, and it needs none where its rule may stand. -/
theorem fits_parenthesized (h : Written S level text x)
    (stands : ∀ n ≤ limit, (placeLevel bare n).rank ≤ level.rank) (opens : inSum < limit → Opens text) :
    Fits S bare (fun n => parenthesized (n > limit) text) x := by
  constructor
  · intro n
    by_cases outside : n > limit
    · rw [parenthesized, decide_eq_true outside, if_pos rfl]
      refine (h.weaken (Nat.zero_le _)).parens.weaken ?_
      cases placeLevel bare n <;> decide
    · rw [parenthesized, decide_eq_false outside, if_neg Bool.false_ne_true]
      exact h.weaken (stands n (not_lt.mp outside))
  · intro n tight
    by_cases outside : n > limit
    · rw [parenthesized, decide_eq_true outside, if_pos rfl]
      exact opens_left _
    · rw [parenthesized, decide_eq_false outside, if_neg Bool.false_ne_true]
      exact opens (tight.trans_le (not_lt.mp outside))

theorem fits_sum (h : Written S .sum text x) : Fits S true (fun n => parenthesized (n > inSum) text) x := by
  refine fits_parenthesized h (fun n le => ?_) fun absurd => absurd.false.elim
  rw [placeLevel, if_pos le, if_pos rfl]

theorem fits_product (h : Written S .product text x) (le : limit ≤ inPower) (opens : inSum < limit → Opens text) :
    Fits S bare (fun n => parenthesized (n > limit) text) x :=
  fits_parenthesized h (fun _ below => placeLevel_rank_le (below.trans le)) opens

theorem fits_primary (h : Written S .primary text x) (opens : Opens text) : Fits S bare (fun _ => text) x := by
  refine ⟨fun n => h.weaken ?_, fun _ _ => opens⟩
  cases placeLevel bare n <;> decide

theorem Fits.weaken {place : Nat → String} (h : Fits S false place x) (bare : Bool) : Fits S bare place x := by
  refine ⟨fun n => (h.written n).weaken ?_, h.opens⟩
  rw [placeLevel, placeLevel]
  cases bare <;> split <;> first | exact Nat.le_refl _ | exact Nat.zero_le _

/-! Numbers. -/

omit [DecidableEq K] in
theorem cast_eq_sign_mul (q : ℚ) : (q : K) = sign K (decide (q < 0)) * (q.num.natAbs / q.den) := by
  have quotient : (q : K) = q.num / q.den := Rat.cast_def q
  rw [quotient]
  by_cases negative : q < 0
  · have num_neg := Rat.num_neg.mpr negative
    have opposite : (q.num : K) = -(q.num.natAbs : K) := by
      have integer : q.num = -(q.num.natAbs : ℤ) := by omega
      rw [integer, Int.cast_neg, Int.cast_natCast, Int.natAbs_neg, Int.natAbs_natCast]
    rw [decide_eq_true negative, sign_true, neg_one_mul, opposite, neg_div]
  · have num_nonneg := Rat.num_nonneg.mpr (not_lt.mp negative)
    have same : (q.num : K) = (q.num.natAbs : K) := by
      have integer : q.num = (q.num.natAbs : ℤ) := by omega
      rw [integer, Int.cast_natCast, Int.natAbs_natCast]
    rw [decide_eq_false negative, sign_false, one_mul, same]

theorem fits_nat (n : Nat) : Fits S bare (rational n) (n : K) := by
  have text : rational n = fun _ => toString n := by
    funext place
    have nonneg : ¬ (n : ℚ) < 0 := not_lt.mpr (Nat.cast_nonneg n)
    rw [rational, decide_eq_false nonneg]
    rfl
  rw [text]
  exact fits_primary (written_nat n) (opens_nat n)

theorem fits_int (k : Int) : Fits S bare (rational k) (k : K) := by
  by_cases negative : k < 0
  · have text : rational k = fun n => parenthesized (n > inSum) (toString k) := by
      funext n
      have below : (k : ℚ) < 0 := Int.cast_lt_zero.mpr negative
      rw [rational, decide_eq_true below]
      rfl
    rw [text]
    exact fits_product (written_int k) (by decide) fun absurd => absurd.false.elim
  · obtain ⟨n, rfl⟩ := Int.eq_ofNat_of_zero_le (not_lt.mp negative)
    rw [Int.cast_natCast, Int.cast_natCast]
    exact fits_nat n

section Rational
variable [CharZero K]

theorem written_unit_fraction (n : Nat) {d : Nat} (d_ne : d ≠ 0) :
    Written S .product ("\\frac" ++ braced (toString n) ++ braced (toString d)) ((n : K) / d) :=
  ((written_nat n).weaken (by decide)).fraction ((written_nat d).weaken (by decide)) (Nat.cast_ne_zero.mpr d_ne)

theorem fits_rational (q : ℚ) : Fits S bare (rational q) (q : K) := by
  have value := cast_eq_sign_mul (K := K) q
  by_cases integer : q.isInt = true
  · obtain ⟨k, rfl⟩ := exists_int_of_isInt integer
    rw [Rat.cast_intCast]
    exact fits_int k
  · have fraction := written_unit_fraction (S := S) q.num.natAbs q.den_ne_zero
    by_cases negative : q < 0
    · have text : rational q = fun n => parenthesized (n > inSum)
          ("- " ++ ("\\frac" ++ braced (toString q.num.natAbs) ++ braced (toString q.den))) := by
        funext n
        rw [rational, if_neg integer, if_pos negative]
      rw [text, value, decide_eq_true negative, sign_true, neg_one_mul]
      exact fits_product fraction.negated (by decide) fun absurd => absurd.false.elim
    · have text : rational q = fun n => parenthesized (n > inPower)
          ("\\frac" ++ braced (toString q.num.natAbs) ++ braced (toString q.den)) := by
        funext n
        rw [rational, if_neg integer, if_neg negative]
      rw [text, value, decide_eq_false negative, sign_false, one_mul]
      exact fits_product fraction (Nat.le_refl _) fun _ => opens_fraction _ _

end Rational

/-! Layouts, given that the writer of the next level fits. -/

section Layout
variable {V : Valuation K} {write : Expr → Nat → String} {out : String} {e item t : Expr} {items terms : List Expr}

/-- The writer fits an expression, whatever its value. -/
def Writes (V : Valuation K) (write : Expr → Nat → String) (e : Expr) : Prop :=
  ∀ x, V.Means e x → Fits V.semantics (leavesSum e) (write e) x

/-- A factor after what has been written. -/
def besideFactor (write : Expr → Nat → String) (out : String) (item : Expr) : String :=
  let text := write item inProduct
  if out.isEmpty then text
  else out ++ (if (text.toList.head?.map Char.isDigit).getD false then " \\cdot " else " ") ++ text

theorem juxtaposed_eq (items : List Expr) : juxtaposed write items = items.foldl (besideFactor write) "" := rfl

theorem written_further_factors (h : Written V.semantics .product out x) (opens : Opens out)
    (writes : ∀ item ∈ items, Writes V write item) (means : V.MeansProduct items y) :
    Written V.semantics .product (items.foldl (besideFactor write) out) (x * y) ∧
      Opens (items.foldl (besideFactor write) out) := by
  induction items generalizing out x y with
  | nil => exact ⟨by simpa [← means.2] using h, opens⟩
  | cons item items ih =>
      obtain ⟨first, others⟩ := List.forall_mem_cons.mp writes
      obtain ⟨u, v, factor, further, rfl⟩ := Valuation.meansProduct_cons.mp means
      have fits := first u factor
      rw [← mul_assoc, List.foldl_cons]
      have joined := h.juxtaposed (fits.written inProduct) (fits.opens inProduct (by decide))
      have step : besideFactor write out item = _ := if_neg (Bool.eq_false_iff.mp h.ne_empty)
      rw [← step] at joined
      refine ih joined ?_ others further
      rw [step]
      exact (opens.append _).append _

theorem written_juxtaposed (nonempty : items ≠ []) (writes : ∀ item ∈ items, Writes V write item)
    (means : V.MeansProduct items x) :
    Written V.semantics .product (juxtaposed write items) x ∧ Opens (juxtaposed write items) := by
  cases items with
  | nil => exact absurd rfl nonempty
  | cons item items =>
      obtain ⟨first, others⟩ := List.forall_mem_cons.mp writes
      obtain ⟨u, v, factor, further, rfl⟩ := Valuation.meansProduct_cons.mp means
      have fits := first u factor
      have start : besideFactor write "" item = write item inProduct := by simp [besideFactor]
      rw [juxtaposed_eq, List.foldl_cons, start]
      exact written_further_factors (fits.written inProduct) (fits.opens inProduct (by decide)) others further

theorem written_fractionPart (nonempty : items ≠ []) (writes : ∀ item ∈ items, Writes V write item)
    (means : V.MeansProduct items x) : Written V.semantics .sum (fractionPart write items) x := by
  cases items with
  | nil => exact absurd rfl nonempty
  | cons item rest =>
      cases rest with
      | nil => exact ((writes item List.mem_cons_self x means.means).written 0).weaken (Nat.zero_le _)
      | cons second rest => exact ((written_juxtaposed nonempty writes means).1).weaken (by decide)

/-- A number is listed with the items of a part unless it is one. -/
def withNumber (n : Nat) (needed : Prop) [Decidable needed] (items : List Expr) : List Expr :=
  if needed then .const n :: items else items

def Fraction.top (f : Fraction) : List Expr :=
  let items := Sorting.sortOn factorClass factorLe f.numerator
  withNumber f.coeff.num.natAbs (f.coeff.num.natAbs ≠ 1 || items.isEmpty) items

def Fraction.bottom (f : Fraction) : List Expr :=
  withNumber f.coeff.den (f.coeff.den ≠ 1) (Sorting.sortOn factorClass factorLe f.denominator)

/-- A text after the sign of a number. -/
def signedText (c : Rat) (text : String) (place : Nat) : String :=
  if c < 0 then parenthesized (place > inSum) ("- " ++ text) else parenthesized (place > inProduct) text

/-- A product is a quotient, a row of factors, or a single item as it is. -/
theorem productLayout_cases (e : Expr) :
    let f := Fraction.ofExpr false e
    (f.bottom ≠ [] ∧ ∀ write, productLayout write e = signedText f.coeff
        ("\\frac" ++ braced (fractionPart write f.top) ++ braced (fractionPart write f.bottom))) ∨
      (f.bottom = [] ∧ ∀ write, productLayout write e = signedText f.coeff (juxtaposed write f.top)) ∨
      ∃ item, f.bottom = [] ∧ f.top = [item] ∧ 0 ≤ f.coeff ∧ ∀ write, productLayout write e = write item := by
  intro f
  have layout (write : Expr → Nat → String) (n : Nat) :
      productLayout write e n = if f.bottom.isEmpty then _ else _ := rfl
  by_cases bottom : f.bottom = []
  · right
    by_cases alone : ∃ item, f.top = [item] ∧ 0 ≤ f.coeff
    · obtain ⟨item, top, nonneg⟩ := alone
      refine .inr ⟨item, bottom, top, nonneg, fun write => funext fun n => ?_⟩
      rw [layout, if_pos (by simpa using bottom)]
      split
      next single same =>
        obtain rfl : single = item := by simpa using same.symm.trans top
        exact if_neg (not_lt.mpr nonneg)
      next other => exact absurd top (other item)
    · refine .inl ⟨bottom, fun write => funext fun n => ?_⟩
      rw [layout, if_pos (by simpa using bottom)]
      split
      next single same =>
        have negative : f.coeff < 0 := not_le.mp fun nonneg => alone ⟨single, same, nonneg⟩
        rw [if_pos negative]
        rfl
      next => rfl
  · left
    refine ⟨bottom, fun write => funext fun n => ?_⟩
    rw [layout, if_neg (by simpa using bottom)]
    rfl

/-- A text after the sign of a number has the value with that sign. -/
theorem fits_signedText {c : ℚ} (h : Written S .product text x) (opens : Opens text) :
    Fits S bare (signedText c text) (sign K (decide (c < 0)) * x) := by
  by_cases negative : c < 0
  · have same : signedText c text = fun n => parenthesized (n > inSum) ("- " ++ text) :=
      funext fun _ => if_pos negative
    rw [same, decide_eq_true negative, sign_true, neg_one_mul]
    exact fits_product h.negated (by decide) fun absurd => absurd.false.elim
  · have same : signedText c text = fun n => parenthesized (n > inProduct) text :=
      funext fun _ => if_neg negative
    rw [same, decide_eq_false negative, sign_false, one_mul]
    exact fits_product h (by decide) fun _ => opens

section WithNumber
variable {n : Nat} {needed : Prop} [Decidable needed]

theorem means_withNumber (means : V.MeansProduct items x) (unit : ¬ needed → n = 1) :
    V.MeansProduct (withNumber n needed items) (n * x) := by
  rw [withNumber]
  split
  next => exact Valuation.meansProduct_cons.mpr ⟨n, x, by simp, means, rfl⟩
  next spare => rwa [unit spare, Nat.cast_one, one_mul]

theorem writes_withNumber (number : Writes V write (.const n)) (writes : ∀ item ∈ items, Writes V write item) :
    ∀ item ∈ withNumber n needed items, Writes V write item := by
  rw [withNumber]
  split
  next => exact List.forall_mem_cons.mpr ⟨number, writes⟩
  next => exact writes

variable {f : Fraction}

theorem Fraction.means_top (means : V.MeansProduct f.numerator x) :
    V.MeansProduct f.top (f.coeff.num.natAbs * x) :=
  means_withNumber (means.perm (Sorting.sortOn_perm _ _ _).symm) (by simp +contextual)

theorem Fraction.means_bottom (means : V.MeansProduct f.denominator x) :
    V.MeansProduct f.bottom (f.coeff.den * x) :=
  means_withNumber (means.perm (Sorting.sortOn_perm _ _ _).symm) (by simp +contextual)

theorem writes_sortOn (writes : ∀ item ∈ items, Writes V write item) :
    ∀ item ∈ Sorting.sortOn factorClass factorLe items, Writes V write item :=
  fun item member => writes item ((Sorting.sortOn_perm _ _ _).mem_iff.mp member)

end WithNumber

theorem Fraction.top_ne_nil (f : Fraction) : f.top ≠ [] := by
  simp only [top, withNumber]
  split
  next => exact List.cons_ne_nil _ _
  next spare =>
    intro empty
    simp [empty] at spare

theorem Fraction.top_eq_singleton {f : Fraction} (top : f.top = [item]) :
    (∃ n : Nat, item = .const n) ∨ f.coeff.num.natAbs = 1 ∧ f.numerator = [item] := by
  simp only [Fraction.top, withNumber] at top
  split at top
  next => exact .inl ⟨_, (List.cons.inj top).1.symm⟩
  next spare =>
    have unit : f.coeff.num.natAbs = 1 := by
      by_contra other
      exact spare (by simp [other])
    have perm := Sorting.sortOn_perm factorClass factorLe f.numerator
    rw [top] at perm
    exact .inr ⟨unit, List.perm_singleton.mp perm.symm⟩

theorem Fraction.bottom_eq_nil {f : Fraction} (bottom : f.bottom = []) :
    f.coeff.den = 1 ∧ f.denominator = [] := by
  simp only [Fraction.bottom, withNumber] at bottom
  split at bottom
  next => cases bottom
  next unit =>
    have perm := Sorting.sortOn_perm factorClass factorLe f.denominator
    rw [bottom] at perm
    exact ⟨not_not.mp unit, perm.symm.eq_nil⟩

/-- A single item without a sign is a number, or it is all that there is. -/
theorem leavesSum_of_top_eq (bottom : (Fraction.ofExpr false e).bottom = [])
    (top : (Fraction.ofExpr false e).top = [item]) (nonneg : 0 ≤ (Fraction.ofExpr false e).coeff) :
    leavesSum item = false ∨ leavesSum e = leavesSum item := by
  obtain ⟨n, rfl⟩ | ⟨unit, above⟩ := Fraction.top_eq_singleton top
  · exact .inl (leavesSum_eq rfl)
  · obtain ⟨whole, below⟩ := Fraction.bottom_eq_nil bottom
    have member : item ∈ (Fraction.ofExpr false e).items := by simp [Fraction.items, above]
    have one : (Fraction.ofExpr false e).coeff = 1 := by
      have num_nonneg := Rat.num_nonneg.mpr nonneg
      exact Rat.ext (by rw [Rat.num_one]; omega) whole
    rw [leavesSum_eq (item_of_mem member).single]
    exact .inr (by simp [leavesSum, above, below, one])

theorem raisedLayout_eq {base : Expr} (arithmetic : Arithmetic base) (exponent : Expr) :
    raisedLayout write base exponent =
      fun n => parenthesized (n > inPower) (write base asAtom ++ "^" ++ braced (write exponent 0)) := by
  cases base with
  | app f a => exact arithmetic.elim
  | _ => rfl

/-- A whole power is written as a fraction, or with its exponent above the base. -/
theorem powerLayout_eq {base : Expr} {k : ℚ} (arithmetic : Arithmetic base) (whole : k.isInt = true) :
    powerLayout write base (.const k) =
      if k < 0 then productLayout write (.pow base (.const k)) else raisedLayout write base (.const k) := by
  have no_root : ¬ ((decide (k.num = 1) && !k.isInt) = true) := by simp [whole]
  funext n
  obtain ⟨root, layout⟩ : ∃ root, powerLayout write base (.const k) n =
      if k < 0 then productLayout write (.pow base (.const k)) n
      else if decide (k.num = 1) && !k.isInt then root else raisedLayout write base (.const k) n := by
    cases base with
    | app f a => exact arithmetic.elim
    | _ => exact ⟨_, rfl⟩
  rw [layout, if_neg no_root, ite_apply]

/-- A term with its sign, after what has been written. -/
def besideTerm (write : Expr → Nat → String) (out : String) (term : Expr) : String :=
  let text := write (asSigned term).2 inSum
  if out.isEmpty then if (asSigned term).1 then "- " ++ text else text
  else out ++ (if (asSigned term).1 then " - " else " + ") ++ text

theorem sumLayout_eq (e : Expr) :
    sumLayout write e = (Sorting.sortOn termClass termLe e.terms).foldl (besideTerm write) "" := rfl

/-- The writer fits a term, and writes no sum after its minus sign. -/
structure WritesTerm (V : Valuation K) (write : Expr → Nat → String) (term : Expr) : Prop where
  fits : Writes V write (asSigned term).2
  single : (asSigned term).1 = true → leavesSum (asSigned term).2 = false

section Value
variable [CharZero K]

theorem written_besideTerm (h : Written V.semantics .sum out x) (writes : WritesTerm V write t)
    (means : V.Means t y) : Written V.semantics .sum (besideTerm write out t) (x + y) := by
  obtain ⟨z, magnitude, rfl⟩ := means_asSigned means
  have shown := (writes.fits z magnitude).written inSum
  have single := writes.single
  rw [besideTerm, if_neg (Bool.eq_false_iff.mp h.ne_empty)]
  cases negative : (asSigned t).1 with
  | false =>
      rw [sign_false, one_mul]
      exact h.plus (shown.weaken (Nat.zero_le _))
  | true =>
      rw [single negative] at shown
      rw [sign_true, neg_one_mul, ← sub_eq_add_neg]
      exact h.sub shown

theorem written_first_term (writes : WritesTerm V write t) (means : V.Means t x) :
    Written V.semantics .sum (besideTerm write "" t) x := by
  obtain ⟨z, magnitude, rfl⟩ := means_asSigned means
  have shown := (writes.fits z magnitude).written inSum
  have single := writes.single
  have empty : "".isEmpty = true := by simp
  rw [besideTerm, if_pos empty]
  cases negative : (asSigned t).1 with
  | false =>
      rw [sign_false, one_mul]
      exact shown.weaken (Nat.zero_le _)
  | true =>
      rw [single negative] at shown
      rw [sign_true, neg_one_mul]
      exact shown.negated.weaken (by decide)

theorem written_terms (h : Written V.semantics .sum out x) (writes : ∀ t ∈ terms, WritesTerm V write t)
    (means : V.MeansSum terms y) : Written V.semantics .sum (terms.foldl (besideTerm write) out) (x + y) := by
  induction terms generalizing out x y with
  | nil => simpa [← means.2] using h
  | cons t terms ih =>
      obtain ⟨first, others⟩ := List.forall_mem_cons.mp writes
      obtain ⟨u, v, term, further, rfl⟩ := Valuation.meansSum_cons.mp means
      rw [← add_assoc]
      exact ih (written_besideTerm h first term) others further

theorem written_sumLayout (nonempty : e.terms ≠ []) (writes : ∀ t ∈ e.terms, WritesTerm V write t)
    (means : V.Means e x) : Written V.semantics .sum (sumLayout write e) x := by
  have perm := Sorting.sortOn_perm termClass termLe e.terms
  have sum := means.terms.perm perm.symm
  have listed : ∀ t ∈ Sorting.sortOn termClass termLe e.terms, WritesTerm V write t :=
    fun t member => writes t (perm.mem_iff.mp member)
  rw [sumLayout_eq]
  cases sorted : Sorting.sortOn termClass termLe e.terms with
  | nil => exact absurd (sorted ▸ perm).symm.eq_nil nonempty
  | cons t terms =>
      rw [sorted] at sum listed
      obtain ⟨first, others⟩ := List.forall_mem_cons.mp listed
      obtain ⟨u, v, term, further, rfl⟩ := Valuation.meansSum_cons.mp sum
      rw [List.foldl_cons]
      exact written_terms (written_first_term first term) others further

theorem fits_productLayout (numbers : ∀ n : Nat, Writes V write (.const n))
    (writes : ∀ item ∈ (Fraction.ofExpr false e).items, Writes V write item) (means : V.Means e x) :
    Fits V.semantics (leavesSum e) (productLayout write e) x := by
  have fraction : FractionMeans V (Fraction.ofExpr false e) (placed false x) :=
    fractionMeans_ofExpr means fun absurd => (Bool.false_ne_true absurd).elim
  obtain ⟨u, v, above, below, v_ne, same⟩ := fraction
  have layout := productLayout_cases e
  have alone (item : Expr) := @leavesSum_of_top_eq e item
  generalize Fraction.ofExpr false e = f at *
  obtain ⟨writesAbove, writesBelow⟩ := List.forall_mem_append.mp writes
  have topMeans := f.means_top above
  have bottomMeans := f.means_bottom below
  have topWrites : ∀ item ∈ f.top, Writes V write item :=
    writes_withNumber (numbers _) (writes_sortOn writesAbove)
  have bottomWrites : ∀ item ∈ f.bottom, Writes V write item :=
    writes_withNumber (numbers _) (writes_sortOn writesBelow)
  have divisor_ne : (f.coeff.den : K) * v ≠ 0 := mul_ne_zero (Nat.cast_ne_zero.mpr f.coeff.den_ne_zero) v_ne
  have value : x = sign K (decide (f.coeff < 0)) * (f.coeff.num.natAbs * u / (f.coeff.den * v)) := by
    rw [mul_div_mul_comm, ← mul_assoc, ← cast_eq_sign_mul]
    exact same.symm
  have whole (bottom : f.bottom = []) : (f.coeff.den : K) * v = 1 := by
    rw [← bottomMeans.2, bottom]
    rfl
  rw [value]
  rcases layout with ⟨bottom, same⟩ | ⟨bottom, same⟩ | ⟨item, bottom, top, nonneg, same⟩
  · have quotient := (written_fractionPart f.top_ne_nil topWrites topMeans).fraction
      (written_fractionPart bottom bottomWrites bottomMeans) divisor_ne
    rw [same]
    exact fits_signedText quotient (opens_fraction _ _)
  · obtain ⟨row, opens⟩ := written_juxtaposed f.top_ne_nil topWrites topMeans
    rw [same, whole bottom, div_one]
    exact fits_signedText row opens
  · rw [top] at topMeans topWrites
    have fits := topWrites item List.mem_cons_self _ topMeans.means
    rw [same, whole bottom, div_one, decide_eq_false (not_lt.mpr nonneg), sign_false, one_mul]
    rcases alone item bottom top nonneg with loose | equal
    · rw [loose] at fits
      exact fits.weaken _
    · rwa [equal]

end Value

end Layout

end SymbolicAlgebra.Latex
