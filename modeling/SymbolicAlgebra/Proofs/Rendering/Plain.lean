import Mathlib.Algebra.BigOperators.Group.List.Basic
import Mathlib.Tactic.Ring
import SymbolicAlgebra.Proofs.Rendering.Shown

/-! What a plain text is read as. Terms and factors are written one after another, with
signs pulled out and divisors last, so the expression that is read has another shape; but
it has the same value, unless a negative fraction stands as a divisor. -/

namespace SymbolicAlgebra
open Grammar

/-- The rule that is asked for where a binding strength is given. -/
def Binding.level : Nat → Level
  | 0 | 1 => .sum
  | 2 => .product
  | 3 => .power
  | _ => .primary

theorem Binding.level_mono : Monotone fun binding => (level binding).rank := by
  apply monotone_nat_of_le_succ
  intro binding
  match binding with
  | 0 | 1 | 2 | 3 => decide
  | _ + 4 => exact le_refl 4

/-- Parentheses carry a text to every place, and it needs none where its rule may stand. -/
theorem Grammar.Denotes.parenthesized {needed : Bool} {binding : Nat} {text : String} {e : Expr} (limit : Nat)
    (h : Denotes (Binding.level limit) text e) (fits : needed = false → binding ≤ limit) :
    Denotes (Binding.level binding) (Plain.parenthesized needed text) e := by
  cases needed with
  | true =>
      have loose : Denotes .sum text e := h.weaken (Nat.zero_le _)
      refine loose.parens.weaken ?_
      cases Binding.level binding <;> decide
  | false => exact h.weaken (Binding.level_mono (fits rfl))

theorem Expr.eq_euler_of_isEuler {e : Expr} (h : e.isEuler = true) : e = .euler := by
  unfold isEuler at h
  split at h
  next => rw [(isOne_iff _).mp h, euler]
  next => cases h

namespace Plain
variable {K : Type*} [Field K] [DecidableEq K]

variable (S : Semantics K)

/-- A text with a sign is a term of a sum. -/
inductive TermShows : Bool × String → K → Prop where
  | mk {negative : Bool} {text : String} {x : K} (h : Shows S .product text x) :
      TermShows (negative, text) (sign K negative * x)

/-- A text with a sign is a factor, or a divisor that is not zero. -/
inductive FactorShows : Factor → K → Prop where
  | factor {negative : Bool} {text : String} {x : K} (h : Shows S .product text x) :
      FactorShows ⟨false, negative, text⟩ (sign K negative * x)
  | divisor {negative : Bool} {text : String} {x : K} (h : Shows S .signed text x) (nonzero : x ≠ 0) :
      FactorShows ⟨true, negative, text⟩ (sign K negative * x⁻¹)

def TermsShow (terms : List (Bool × String)) (x : K) : Prop :=
  terms ≠ [] ∧ ∃ xs, List.Forall₂ (TermShows S) terms xs ∧ xs.sum = x

def FactorsShow (factors : List Factor) (x : K) : Prop :=
  ∃ xs, List.Forall₂ (FactorShows S) factors xs ∧ xs.prod = x

variable {S} {text : String} {x y z : K} {terms others : List (Bool × String)}
variable {factors divisors : List Factor}

theorem TermsShow.append (h : TermsShow S terms x) (k : TermsShow S others y) :
    TermsShow S (terms ++ others) (x + y) := by
  obtain ⟨nonempty, xs, shown, rfl⟩ := h
  obtain ⟨-, ys, further, rfl⟩ := k
  refine ⟨List.append_ne_nil_of_left_ne_nil nonempty others, xs ++ ys, ?_, List.sum_append⟩
  exact List.rel_append shown further

theorem FactorsShow.append (h : FactorsShow S factors x) (k : FactorsShow S divisors y) :
    FactorsShow S (factors ++ divisors) (x * y) := by
  obtain ⟨xs, shown, rfl⟩ := h
  obtain ⟨ys, further, rfl⟩ := k
  exact ⟨xs ++ ys, List.rel_append shown further, List.prod_append⟩

theorem TermShows.single {term : Bool × String} (h : TermShows S term x) : TermsShow S [term] x :=
  ⟨List.cons_ne_nil _ _, [x], .cons h .nil, List.sum_singleton⟩

theorem FactorShows.single {factor : Factor} (h : FactorShows S factor x) : FactorsShow S [factor] x :=
  ⟨[x], .cons h .nil, List.prod_singleton⟩

/-- Further terms are added or subtracted one by one. -/
theorem shows_further_terms {xs : List K} (h : Shows S .sum text x) (k : List.Forall₂ (TermShows S) terms xs) :
    Shows S .sum (text ++ String.join (terms.map fun (negative, text) =>
      (if negative then " - " else " + ") ++ text)) (x + xs.sum) := by
  induction k generalizing text x with
  | nil => simpa using h
  | cons first _ ih =>
      cases first with
      | @mk negative term y shown =>
        rw [List.map_cons, String.join_cons, ← String.append_assoc, ← String.append_assoc,
          List.sum_cons, ← add_assoc]
        apply ih
        cases negative with
        | false =>
            rw [sign_false, one_mul]
            exact h.plus (shown.weaken (by decide))
        | true =>
            rw [sign_true, neg_one_mul, ← sub_eq_add_neg]
            exact h.sub shown

theorem TermsShow.shows (h : TermsShow S terms x) : Shows S .sum (Form.termsText terms) x := by
  obtain ⟨nonempty, xs, shown, rfl⟩ := h
  cases shown with
  | nil => exact absurd rfl nonempty
  | cons first others =>
      cases first with
      | @mk negative term y shown =>
        rw [List.sum_cons]
        apply shows_further_terms _ others
        cases negative with
        | false =>
            rw [sign_false, one_mul]
            exact shown.weaken (by decide)
        | true =>
            rw [sign_true, neg_one_mul]
            exact shown.negated.weaken (by decide)

theorem shows_intercalate {texts : List String} {xs : List K} (h : Shows S .product text x)
    (k : List.Forall₂ (Shows S .product) texts xs) :
    Shows S .product ("*".intercalate (text :: texts)) (x * xs.prod) := by
  induction k generalizing text x with
  | nil => simpa using h
  | cons first others ih =>
      rw [String.intercalate_cons_cons, List.prod_cons]
      exact h.times (ih first)

/-- Without a factor there is a one to divide. -/
theorem shows_numerator {texts : List String} {xs : List K} (k : List.Forall₂ (Shows S .product) texts xs) :
    Shows S .product (if texts.isEmpty then "1" else "*".intercalate texts) xs.prod := by
  cases k with
  | nil =>
      have one : Shows S .primary "1" ((1 : Nat) : K) := shows_nat 1
      rw [Nat.cast_one] at one
      exact one.weaken (by decide)
  | cons first others =>
      rw [List.prod_cons]
      exact shows_intercalate first others

theorem shows_quotient {xs : List K} (h : Shows S .product text x)
    (k : List.Forall₂ (fun f y => Shows S .signed f.text y ∧ y ≠ 0) divisors xs) :
    Shows S .product (text ++ String.join (divisors.map fun f => "/" ++ f.text)) (x / xs.prod) := by
  induction k generalizing text x with
  | nil => simpa using h
  | cons first _ ih =>
      rw [List.map_cons, String.join_cons, ← String.append_assoc, ← String.append_assoc,
        List.prod_cons, ← div_div]
      exact ih (h.div first.1 first.2)

omit [DecidableEq K] in
theorem sign_foldl (factors : List Factor) (negative : Bool) :
    sign K (factors.foldl (fun sign f => sign != f.negative) negative) =
      sign K negative * (factors.map fun f => sign K f.negative).prod := by
  induction factors generalizing negative with
  | nil => simp
  | cons f factors ih =>
      rw [List.foldl_cons, ih, sign_bne, List.map_cons, List.prod_cons, mul_assoc]

/-- The factors, the divisors and the signs apart from each other. -/
theorem exists_of_forall₂ {xs : List K} (h : List.Forall₂ (FactorShows S) factors xs) :
    ∃ ys zs, List.Forall₂ (Shows S .product) ((factors.filter fun f => !f.divisor).map (·.text)) ys ∧
      List.Forall₂ (fun f z => Shows S .signed f.text z ∧ z ≠ 0) (factors.filter (·.divisor)) zs ∧
      xs.prod = (factors.map fun f => sign K f.negative).prod * (ys.prod / zs.prod) := by
  induction h with
  | nil => exact ⟨[], [], .nil, .nil, by simp⟩
  | cons first _ ih =>
      obtain ⟨ys, zs, above, below, value⟩ := ih
      rw [List.prod_cons, List.map_cons, List.prod_cons, value]
      cases first with
      | @factor negative text x h =>
          refine ⟨x :: ys, zs, .cons h above, below, ?_⟩
          rw [List.prod_cons]
          ring
      | @divisor negative text x h nonzero =>
          refine ⟨ys, x :: zs, above, .cons ⟨h, nonzero⟩ below, ?_⟩
          rw [List.prod_cons]
          ring

theorem FactorsShow.shows (h : FactorsShow S factors x) : Shows S .product (Form.factorsText factors) x := by
  obtain ⟨xs, shown, rfl⟩ := h
  obtain ⟨ys, zs, above, below, value⟩ := exists_of_forall₂ shown
  have total := sign_foldl (K := K) factors false
  rw [sign_false, one_mul] at total
  rw [value, ← total, ← mul_div_assoc]
  apply shows_quotient _ below
  have numerator := shows_numerator above
  cases factors.foldl (fun sign f => sign != f.negative) false with
  | false =>
      rw [sign_false, one_mul]
      exact numerator
  | true =>
      rw [sign_true, neg_one_mul]
      exact numerator.negated

theorem shows_parenthesized {needed : Bool} {binding : Nat} (limit : Nat) (h : Shows S (Binding.level limit) text x)
    (fits : needed = false → binding ≤ limit) :
    Shows S (Binding.level binding) (parenthesized needed text) x := by
  obtain ⟨r, denotes, value⟩ := h
  exact ⟨r, denotes.parenthesized limit fits, value⟩

variable (S) in
/-- The text of an expression with the value in every place, and its terms. -/
structure FormShows (form : Form) (x : K) : Prop where
  text : ∀ binding, Shows S (Binding.level binding) (form.text binding) x
  terms : ∀ negative, TermsShow S (form.terms negative) (sign K negative * x)

variable {form left right : Form} {divisor negative : Bool} {q : Rat}
variable {a b e : Expr} {name : String} {f : Fn}

theorem shows_term {place : Nat → String} (h : ∀ binding, Shows S (Binding.level binding) (place binding) x) :
    TermsShow S [(negative, place Binding.product)] (sign K negative * x) :=
  (TermShows.mk (h Binding.product)).single

theorem shows_factor {place : Nat → String} (h : ∀ binding, Shows S (Binding.level binding) (place binding) x)
    (nonzero : divisor = true → x ≠ 0) :
    FactorsShow S [⟨divisor, negative, place (Form.factorBinding divisor)⟩]
      (sign K negative * placed divisor x) := by
  apply FactorShows.single
  cases divisor with
  | false => exact .factor ((h Binding.unary).weaken (by decide))
  | true => exact .divisor ((h Binding.power).weaken (by decide)) (nonzero rfl)

theorem shows_unsigned {place : Nat → String}
    (h : ∀ binding, Shows S (Binding.level binding) (place binding) x) (nonzero : divisor = true → x ≠ 0) :
    FactorsShow S [⟨divisor, false, place (Form.factorBinding divisor)⟩] (placed divisor x) := by
  have factor : FactorsShow S [⟨divisor, false, _⟩] (sign K false * placed divisor x) :=
    shows_factor h nonzero
  rwa [sign_false, one_mul] at factor

theorem shows_atom {place : Nat → String} (h : ∀ binding, Shows S (Binding.level binding) (place binding) x) :
    FormShows S (.atom place) x :=
  ⟨h, fun _ => shows_term h⟩

theorem shows_ofTerms {terms : Bool → List (Bool × String)}
    (h : ∀ negative, TermsShow S (terms negative) (sign K negative * x)) : FormShows S (.ofTerms terms) x := by
  refine ⟨fun binding => shows_parenthesized Binding.sum ?_ ?_, h⟩
  · have positive := h false
    rw [sign_false, one_mul] at positive
    exact positive.shows
  · exact fun fits => not_lt.mp (of_decide_eq_false fits)

theorem shows_ofFactors {factors : Bool → List Factor} (h : FactorsShow S (factors false) x) :
    FormShows S (.ofFactors factors) x := by
  have everywhere (binding : Nat) : Shows S (Binding.level binding)
      (parenthesized (binding > Binding.product) (Form.factorsText (factors false))) x :=
    shows_parenthesized Binding.product h.shows fun fits => not_lt.mp (of_decide_eq_false fits)
  exact ⟨everywhere, fun _ => shows_term everywhere⟩

theorem FormShows.negated (h : FormShows S form x) : FormShows S form.negated (-x) := by
  refine ⟨fun binding => shows_parenthesized Binding.product ?_ ?_, fun negative => ?_⟩
  · exact (((h.text Binding.unary).weaken (by decide)).neg).weaken (by decide)
  · exact fun fits => not_lt.mp (of_decide_eq_false fits)
  · have flipped := h.terms !negative
    rw [sign_not, neg_mul_comm] at flipped
    exact flipped

theorem FormShows.negated_factors (h : FormShows S form x) (nonzero : divisor = true → -x ≠ 0) :
    FactorsShow S (form.negated.factors divisor) (placed divisor (-x)) := by
  have opposite : placed divisor (-x) = sign K true * placed divisor x := by
    rw [placed_neg, sign_true, neg_one_mul]
  rw [opposite]
  exact shows_factor h.text fun inverted => neg_ne_zero.mp (nonzero inverted)

theorem shows_primary (h : Shows S .primary text x) (binding : Nat) :
    Shows S (Binding.level binding) text x :=
  h.weaken (by cases Binding.level binding <;> decide)

section Numbers
variable [CharZero K]

theorem shows_const (q : Rat) (binding : Nat) : Shows S (Binding.level binding)
    (parenthesized (binding ≥ Binding.unary && (q < 0 || !q.isInt)) (Number.text q)) (q : K) := by
  cases small : decide (q < 0) || !q.isInt with
  | false =>
      rw [Bool.or_eq_false_iff, Bool.not_eq_false'] at small
      rw [Bool.and_false]
      exact shows_primary (shows_whole small.2 (not_lt.mp (of_decide_eq_false small.1))) binding
  | true =>
      rw [Bool.and_true]
      apply shows_parenthesized Binding.product (shows_number q)
      exact fun fits => Nat.le_of_lt_succ (not_le.mp (of_decide_eq_false fits))

theorem shows_ofConst (q : Rat) : FormShows S (.ofConst q) (q : K) := by
  have number : FormShows S _ (q : K) := shows_atom (shows_const q)
  rw [Form.ofConst]
  split
  · exact ⟨number.text, number.terms⟩
  · exact number

/-- A number without its sign needs parentheses as a divisor, unless it is whole. -/
theorem ofConst_factors (plain : divisor = true → 0 ≤ q ∨ q.isInt = true)
    (nonzero : divisor = true → (q : K) ≠ 0) :
    FactorsShow S ((Form.ofConst q).factors divisor) (placed divisor (q : K)) := by
  by_cases negative : q < 0
  · have opposite : placed divisor (q : K) = sign K true * placed divisor ((-q : ℚ) : K) := by
      rw [Rat.cast_neg, placed_neg, sign_true, neg_one_mul, neg_neg]
    rw [Form.ofConst, if_pos negative, opposite]
    apply FactorShows.single
    cases divisor with
    | false => exact .factor (shows_number (-q))
    | true =>
        have whole : q.isInt = true := (plain rfl).resolve_left (not_le.mpr negative)
        have integer : (-q).isInt = true := by simpa [Rat.isInt] using whole
        refine .divisor ((shows_whole integer (neg_nonneg.mpr negative.le)).weaken (by decide)) ?_
        rw [Rat.cast_neg]
        exact neg_ne_zero.mpr (nonzero rfl)
  · rw [Form.ofConst, if_neg negative]
    exact shows_unsigned (shows_const q) nonzero

end Numbers

end Plain

/-- No negative fraction stands as a divisor. In an inverted place the factors are divisors,
and the divisors are factors. -/
def PlainDivisors : Bool → Expr → Prop
  | inverted, .const q => inverted = true → 0 ≤ q ∨ q.isInt = true
  | inverted, .mul a b => PlainDivisors inverted a ∧ PlainDivisors inverted b
  | inverted, .div a b => PlainDivisors inverted a ∧ PlainDivisors (!inverted) b
  | _, .add a b | _, .sub a b | _, .pow a b => PlainDivisors false a ∧ PlainDivisors false b
  | _, .neg a | _, .app _ a => PlainDivisors false a
  | _, .var _ | _, .pi | _, .infinity | _, .undefined => True

namespace Plain
variable {K : Type*} [Field K] [DecidableEq K] [CharZero K] (S : Semantics K)

/-- The texts of the expression show the value, as long as no fraction that they divide by
loses its sign. -/
def Expresses (e : Expr) (x : K) : Prop :=
  (PlainDivisors false e → FormShows S (form e) x) ∧
    ∀ divisor, PlainDivisors divisor e → (divisor = true → x ≠ 0) →
      FactorsShow S ((form e).factors divisor) (placed divisor x)

variable {S} {a b e : Expr} {x y z : K}

omit [CharZero K] in
/-- An expression that is one factor. -/
theorem expresses_of_single (same : ∀ divisor, PlainDivisors divisor e = PlainDivisors false e)
    (single : ∀ divisor, (form e).factors divisor =
      [⟨divisor, false, (form e).text (Form.factorBinding divisor)⟩])
    (h : PlainDivisors false e → FormShows S (form e) x) : Expresses S e x := by
  refine ⟨h, fun divisor plain nonzero => ?_⟩
  rw [single divisor]
  exact shows_unsigned (h (same divisor ▸ plain)).text nonzero

omit [CharZero K] in
/-- A product or quotient, given its factors in either place. -/
theorem expresses_of_factors {factors : Bool → List Factor} (product : form e = .ofFactors factors)
    (h : ∀ divisor, PlainDivisors divisor e → (divisor = true → x ≠ 0) →
      FactorsShow S (factors divisor) (placed divisor x)) : Expresses S e x := by
  rw [Expresses, product]
  exact ⟨fun plain => shows_ofFactors (h false plain nofun), h⟩

theorem expresses (named : ∀ name ∈ e.names, NamesVariable name) (has : S.value e = some x) :
    Expresses S e x := by
  induction e generalizing x with
  | var name =>
      obtain ⟨identifier, free⟩ := named name List.mem_cons_self
      have word : Shows S .primary name x := ⟨_, .word identifier (word?_of_not_reserved free), has⟩
      exact expresses_of_single (fun _ => rfl) (fun _ => rfl) fun _ => shows_atom (shows_primary word)
  | pi =>
      have word : Shows S .primary "pi" x := ⟨_, .word rfl rfl, has⟩
      exact expresses_of_single (fun _ => rfl) (fun _ => rfl) fun _ => shows_atom (shows_primary word)
  | infinity =>
      have word : Shows S .primary "oo" x := ⟨_, .word rfl rfl, has⟩
      exact expresses_of_single (fun _ => rfl) (fun _ => rfl) fun _ => shows_atom (shows_primary word)
  | undefined => cases has
  | const q =>
      obtain rfl := Option.some.inj has
      exact ⟨fun _ => shows_ofConst q, fun divisor plain nonzero => ofConst_factors plain nonzero⟩
  | neg a ih =>
      obtain ⟨y, inner, rfl⟩ := Semantics.value_neg.mp has
      have shown (plain : PlainDivisors false a) := (ih named inner).1 plain
      exact ⟨fun plain => (shown plain).negated, fun _ plain nonzero => (shown plain).negated_factors nonzero⟩
  | add a b iha ihb =>
      obtain ⟨y, z, left, right, rfl⟩ := Semantics.value_add.mp has
      obtain ⟨first, second⟩ := List.forall_mem_append.mp named
      refine expresses_of_single (fun _ => rfl) (fun _ => rfl) fun plain => shows_ofTerms fun negative => ?_
      rw [mul_add]
      exact (((iha first left).1 plain.1).terms negative).append (((ihb second right).1 plain.2).terms negative)
  | sub a b iha ihb =>
      obtain ⟨y, z, left, right, rfl⟩ := Semantics.value_sub.mp has
      obtain ⟨first, second⟩ := List.forall_mem_append.mp named
      refine expresses_of_single (fun _ => rfl) (fun _ => rfl) fun plain => shows_ofTerms fun negative => ?_
      rw [mul_sub, sub_eq_add_neg, ← neg_mul, ← sign_not]
      exact (((iha first left).1 plain.1).terms negative).append
        (((ihb second right).1 plain.2).terms !negative)
  | mul a b iha ihb =>
      obtain ⟨y, z, left, right, rfl⟩ := Semantics.value_mul.mp has
      obtain ⟨first, second⟩ := List.forall_mem_append.mp named
      refine expresses_of_factors rfl fun divisor plain nonzero => ?_
      have above := (iha first left).2 divisor plain.1 fun inverted => left_ne_zero_of_mul (nonzero inverted)
      have below := (ihb second right).2 divisor plain.2 fun inverted => right_ne_zero_of_mul (nonzero inverted)
      rw [placed_mul]
      exact above.append below
  | div a b iha ihb =>
      obtain ⟨y, z, left, right, z_ne, rfl⟩ := Semantics.value_div.mp has
      obtain ⟨first, second⟩ := List.forall_mem_append.mp named
      refine expresses_of_factors rfl fun divisor plain nonzero => ?_
      have above := (iha first left).2 divisor plain.1 fun inverted => (div_ne_zero_iff.mp (nonzero inverted)).1
      have below := (ihb second right).2 (!divisor) plain.2 fun _ => z_ne
      rw [placed_div]
      exact above.append below
  | pow a b iha ihb =>
      obtain ⟨y, z, left, right, power⟩ := Semantics.value_pow.mp has
      obtain ⟨first, second⟩ := List.forall_mem_append.mp named
      refine expresses_of_single (fun _ => rfl) (fun _ => rfl) fun plain => shows_atom fun binding => ?_
      have base := ((iha first left).1 plain.1).text Binding.power
      have exponent := ((ihb second right).1 plain.2).text Binding.power
      apply shows_parenthesized Binding.unary (base.pow (exponent.weaken (by decide)) power)
      exact fun fits => not_lt.mp (of_decide_eq_false fits)
  | app f a ih =>
      obtain ⟨y, inner, head⟩ := Semantics.value_app.mp has
      refine expresses_of_single (fun _ => rfl) (fun _ => rfl) fun plain => shows_atom fun binding => ?_
      apply shows_primary
      split
      next euler =>
        rw [Expr.eq_euler_of_isEuler euler] at has
        exact ⟨_, .word rfl rfl, has⟩
      next => exact (((ih named inner).1 plain).text Binding.loose).call head

/-- The text of an expression is read again, and what is read has its value: in any field of
characteristic zero, for any symbols, powers and heads. -/
theorem plain_text_keeps_value (named : ∀ name ∈ e.names, NamesVariable name)
    (plain : PlainDivisors false e) (has : S.value e = some x) :
    ∃ r, Expr.parse e.plain = .ok r ∧ S.value r = some x := by
  obtain ⟨r, denotes, value⟩ := ((expresses named has).1 plain).text Binding.loose
  exact ⟨r, denotes.parse, value⟩

/-- The symbols are one, and a power is its base times its exponent. -/
def plainSemantics : Semantics ℚ := ⟨fun _ => 1, some 3, none, fun x y => some (x * y), fun _ _ => none⟩

/-- `-x/(x - 1/2)` to the power `-2`, times `pi`, over two thirds and over `-2`. -/
theorem nested_fractions_keep_value :
    let x : Expr := .var "x"
    let quotient : Expr := .neg (.div x (.add x (.const (-1/2))))
    let e : Expr := .div (.div (.mul (.pow quotient (.const (-2))) .pi) (.const (2/3))) (.const (-2))
    (∀ name ∈ e.names, NamesVariable name) ∧ PlainDivisors false e ∧ plainSemantics.value e = some (-9) ∧
      ∃ r, Expr.parse e.plain = .ok r ∧ plainSemantics.value r = some (-9) := by
  intro x quotient e
  have free : ¬ Reserved "x" := by
    rintro (constant | ⟨f, head⟩)
    · simp at constant
    · cases Fn.ofWord?_eq_some.mpr head
  have named : ∀ name ∈ e.names, NamesVariable name := by
    intro name member
    obtain rfl : name = "x" := by simpa [e, quotient, x, Expr.names] using member
    exact ⟨rfl, free⟩
  have positive : (0 : ℚ) ≤ 2/3 := by decide +kernel
  have plain : PlainDivisors false e := by
    simp [e, quotient, x, PlainDivisors, Rat.isInt, positive]
  have has : plainSemantics.value e = some (-9) := by decide +kernel
  exact ⟨named, plain, has, plain_text_keeps_value named plain has⟩

/-- Where a negative fraction stands as a divisor, the sign goes in front and the rest of the
fraction is read as two divisors. -/
theorem negative_half_as_divisor_is_misread :
    let e : Expr := .div (.var "x") (.const (-1/2))
    let r : Expr := .div (.div (.neg (.var "x")) (.const 1)) (.const 2)
    e.plain = "-x/1/2" ∧ Expr.parse e.plain = .ok r ∧
      plainSemantics.value e = some (-2) ∧ plainSemantics.value r = some (-1/2) := by
  decide +kernel

end Plain
end SymbolicAlgebra
