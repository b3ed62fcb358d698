import SymbolicAlgebra.Proofs.Grammar.Range
import SymbolicAlgebra.Proofs.Rendering.Plain

/-! Every plain text is read again, also one that divides by a negative fraction and gets
another value, or that spells an indeterminate form. No symbol is lost or added on the way:
the variables of what is read are words of the text, and the text has a word for each variable
of the expression. -/

namespace SymbolicAlgebra
open Grammar

/-- The words of a text that name variables, in their order. -/
def namesIn (text : String) : List String :=
  ((Lexeme.list text.toList).map Lexeme.token).filterMap Token.named?

namespace Grammar

variable {level weak la lb : Level} {text other : String} {ts us : List Token} {a b e r : Expr}
variable {l m : List String}

theorem Denotes.names (h : Denotes level text e) : e.names = namesIn text := by
  obtain ⟨ts, derived, spelled⟩ := h
  rw [derived.names, namesIn, spelled.tokens derived.compact.apart]

theorem Regrouped.names (h : Regrouped e r) : r.names = e.names := by
  induction h <;> simp_all [Expr.names]

theorem Denotes.hasUndefined (h : Denotes level text e) : e.hasUndefined = false := by
  obtain ⟨ts, derived, -⟩ := h
  exact derived.hasUndefined

/-- The text is one of the rule, and its variables are these in some order. -/
def Mentions (level : Level) (text : String) (names : List String) : Prop :=
  ∃ r, Denotes level text r ∧ r.names.Perm names

theorem Denotes.mentions (h : Denotes level text r) : Mentions level text r.names := ⟨r, h, .refl _⟩

theorem Mentions.perm (h : Mentions level text l) (same : l.Perm m) : Mentions level text m := by
  obtain ⟨r, denotes, found⟩ := h
  exact ⟨r, denotes, found.trans same⟩

theorem Mentions.namesIn (h : Mentions level text l) : (namesIn text).Perm l := by
  obtain ⟨r, denotes, found⟩ := h
  rwa [denotes.names] at found

theorem Mentions.weaken (h : Mentions level text l) (le : weak.rank ≤ level.rank) : Mentions weak text l := by
  obtain ⟨r, denotes, found⟩ := h
  exact ⟨r, denotes.weaken le, found⟩

theorem Mentions.neg (h : Mentions .signed text l) : Mentions .signed ("-" ++ text) l := by
  obtain ⟨r, denotes, found⟩ := h
  exact ⟨_, denotes.neg, found⟩

theorem Mentions.negated (h : Mentions .product text l) : Mentions .product ("-" ++ text) l := by
  obtain ⟨a, denotes, found⟩ := h
  obtain ⟨r, signed, regrouped⟩ := denotes.negated
  refine ⟨r, signed, ?_⟩
  rw [regrouped.names]
  exact found

theorem Mentions.call (h : Mentions .sum text l) (f : Fn) : Mentions .primary (f.name ++ "(" ++ text ++ ")") l := by
  obtain ⟨a, denotes, found⟩ := h
  have identifier : isIdentifier f.name = true := by cases f <;> rfl
  have spelling : f.name ∈ f.words := by cases f <;> simp [Fn.name, Fn.words]
  exact ⟨_, denotes.call identifier spelling, found⟩

/-- A product behind a slash is taken apart: the first factor is the divisor. -/
theorem Derives.over (h : Derives .product ts a) (k : Derives .product us b) :
    ∃ r, Derives .product (ts ++ .slash :: us) r := by
  generalize same : Level.product = level at k
  induction k with
  | signed k => exact ⟨_, .div h k⟩
  | mul left right ih =>
      obtain ⟨r, joined⟩ := ih same
      rw [← List.cons_append, ← List.append_assoc]
      exact ⟨_, .mul joined right⟩
  | div left right ih =>
      obtain ⟨r, joined⟩ := ih same
      rw [← List.cons_append, ← List.append_assoc]
      exact ⟨_, .div joined right⟩
  | _ => cases same

/-- An operator names nothing, so two texts with one between them have the variables of both. -/
theorem Mentions.joined {op : Token} {sign : String} (h : Mentions la text l) (k : Mentions lb other m)
    (operator : op.named? = none)
    (spelled : ∀ {us cs}, Spelling us cs → Spelling (op :: us) (sign.toList ++ cs))
    (join : ∀ {ts us a b}, Derives la ts a → Derives lb us b → ∃ r, Derives level (ts ++ op :: us) r) :
    Mentions level (text ++ sign ++ other) (l ++ m) := by
  obtain ⟨a, left, foundLeft⟩ := h
  obtain ⟨b, right, foundRight⟩ := k
  have whole := left.joined (P := fun r => r.names = a.names ++ b.names) right spelled fun first second => by
    obtain ⟨r, derived⟩ := join first second
    refine ⟨r, derived, ?_⟩
    rw [derived.names, first.names, second.names, List.filterMap_append, List.filterMap_cons_none operator]
  obtain ⟨r, denotes, found⟩ := whole
  exact ⟨r, denotes, found ▸ foundLeft.append foundRight⟩

theorem Mentions.plus (h : Mentions .sum text l) (k : Mentions .sum other m) :
    Mentions .sum (text ++ " + " ++ other) (l ++ m) :=
  h.joined k rfl (spelling_spaced .plus) fun left right => (left.addSum right).imp fun _ => And.left

theorem Mentions.sub (h : Mentions .sum text l) (k : Mentions .product other m) :
    Mentions .sum (text ++ " - " ++ other) (l ++ m) :=
  h.joined k rfl (spelling_spaced .minus) fun left right => ⟨_, .sub left right⟩

theorem Mentions.times (h : Mentions .product text l) (k : Mentions .product other m) :
    Mentions .product (text ++ "*" ++ other) (l ++ m) :=
  h.joined k rfl (spelling_operator .star) fun left right => (left.times right).imp fun _ => And.left

theorem Mentions.over (h : Mentions .product text l) (k : Mentions .product other m) :
    Mentions .product (text ++ "/" ++ other) (l ++ m) :=
  h.joined k rfl (spelling_operator .slash) Derives.over

theorem Mentions.pow (h : Mentions .primary text l) (k : Mentions .signed other m) :
    Mentions .power (text ++ "**" ++ other) (l ++ m) :=
  h.joined k rfl (spelling_operator .stars) fun base exponent => ⟨_, .pow base exponent⟩

/-! Numbers mention nothing. -/

theorem mentions_nat (n : Nat) : Mentions .primary (toString n) [] := (Denotes.numeral n).mentions

theorem mentions_int (k : Int) : Mentions .signed (toString k) [] := by
  cases k with
  | ofNat n => exact (mentions_nat n).weaken (by decide)
  | negSucc n => exact Mentions.neg ((mentions_nat (n + 1)).weaken (by decide))

theorem mentions_number (q : Rat) : Mentions .product (Number.text q) [] := by
  have numerator : Mentions .product (toString q.num) [] := (mentions_int q.num).weaken (by decide)
  rw [Number.text]
  split
  next => exact numerator
  next => exact numerator.over ((mentions_nat q.den).weaken (by decide))

theorem mentions_whole {q : Rat} (integer : q.isInt = true) (nonneg : 0 ≤ q) :
    Mentions .primary (Number.text q) [] := by
  obtain ⟨k, rfl⟩ := exists_int_of_isInt integer
  obtain ⟨n, rfl⟩ := Int.eq_ofNat_of_zero_le (Int.cast_nonneg_iff.mp nonneg)
  exact mentions_nat n

end Grammar

/-- The variables that stand in the text of an expression. -/
def Expr.written : Expr → List String
  | .var name => [name]
  | .undefined => ["nan"]
  | .add a b | .sub a b | .mul a b | .div a b | .pow a b => a.written ++ b.written
  | .neg a | .app _ a => a.written
  | .const _ | .pi | .infinity => []

theorem Expr.mem_written_iff {name : String} {e : Expr} :
    name ∈ e.written ↔ name ∈ e.names ∨ name = "nan" ∧ e.hasUndefined = true := by
  induction e <;> simp_all [written, names, hasUndefined]
  all_goals grind

namespace Plain

/-- Texts of products with these variables together. -/
structure AllMention (texts : List String) (names : List String) : Prop where
  each : ∀ text ∈ texts, Mentions .product text (namesIn text)
  names : (texts.flatMap namesIn).Perm names

def TermsMention (terms : List (Bool × String)) (names : List String) : Prop :=
  terms ≠ [] ∧ AllMention (terms.map Prod.snd) names

def FactorsMention (factors : List Factor) (names : List String) : Prop :=
  AllMention (factors.map Factor.text) names

variable {text : String} {texts others l m : List String} {terms more : List (Bool × String)}
variable {factors divisors : List Factor}

theorem AllMention.append (h : AllMention texts l) (k : AllMention others m) :
    AllMention (texts ++ others) (l ++ m) := by
  refine ⟨List.forall_mem_append.mpr ⟨h.each, k.each⟩, ?_⟩
  rw [List.flatMap_append]
  exact h.names.append k.names

theorem AllMention.single (h : Mentions .product text l) : AllMention [text] l := by
  refine ⟨List.forall_mem_singleton.mpr (h.perm h.namesIn.symm), ?_⟩
  rw [List.flatMap_singleton]
  exact h.namesIn

theorem TermsMention.append (h : TermsMention terms l) (k : TermsMention more m) :
    TermsMention (terms ++ more) (l ++ m) := by
  refine ⟨List.append_ne_nil_of_left_ne_nil h.1 more, ?_⟩
  rw [List.map_append]
  exact h.2.append k.2

theorem FactorsMention.append (h : FactorsMention factors l) (k : FactorsMention divisors m) :
    FactorsMention (factors ++ divisors) (l ++ m) := by
  rw [FactorsMention, List.map_append]
  exact AllMention.append h k

/-- Further terms are added or subtracted one by one. -/
theorem mentions_further_terms (h : Mentions .sum text l)
    (k : ∀ text ∈ terms.map Prod.snd, Mentions .product text (namesIn text)) :
    Mentions .sum (text ++ String.join (terms.map fun (negative, text) =>
      (if negative then " - " else " + ") ++ text)) (l ++ (terms.map Prod.snd).flatMap namesIn) := by
  induction terms generalizing text l with
  | nil => simpa using h
  | cons first terms ih =>
      obtain ⟨negative, term⟩ := first
      obtain ⟨next, later⟩ := List.forall_mem_cons.mp k
      rw [List.map_cons, String.join_cons, ← String.append_assoc, ← String.append_assoc,
        List.map_cons, List.flatMap_cons, ← List.append_assoc]
      refine ih ?_ later
      cases negative with
      | false => exact h.plus (next.weaken (by decide))
      | true => exact h.sub next

theorem TermsMention.sum (h : TermsMention terms l) : Mentions .sum (Form.termsText terms) l := by
  obtain ⟨nonempty, all⟩ := h
  refine Mentions.perm ?_ all.names
  cases terms with
  | nil => exact absurd rfl nonempty
  | cons first terms =>
      obtain ⟨negative, term⟩ := first
      obtain ⟨next, later⟩ := List.forall_mem_cons.mp all.each
      rw [List.map_cons, List.flatMap_cons]
      refine mentions_further_terms ?_ later
      cases negative with
      | false => exact next.weaken (by decide)
      | true => exact next.negated.weaken (by decide)

theorem mentions_intercalate (h : Mentions .product text l)
    (k : ∀ text ∈ texts, Mentions .product text (namesIn text)) :
    Mentions .product ("*".intercalate (text :: texts)) (l ++ texts.flatMap namesIn) := by
  induction texts generalizing text l with
  | nil => simpa using h
  | cons first texts ih =>
      obtain ⟨next, later⟩ := List.forall_mem_cons.mp k
      rw [String.intercalate_cons_cons, List.flatMap_cons]
      exact h.times (ih next later)

theorem mentions_numerator (k : ∀ text ∈ texts, Mentions .product text (namesIn text)) :
    Mentions .product (if texts.isEmpty then "1" else "*".intercalate texts) (texts.flatMap namesIn) := by
  cases texts with
  | nil => exact (mentions_nat 1).weaken (by decide)
  | cons first texts =>
      obtain ⟨next, later⟩ := List.forall_mem_cons.mp k
      exact mentions_intercalate next later

theorem mentions_quotient (h : Mentions .product text l)
    (k : ∀ f ∈ divisors, Mentions .product f.text (namesIn f.text)) :
    Mentions .product (text ++ String.join (divisors.map fun f => "/" ++ f.text))
      (l ++ divisors.flatMap fun f => namesIn f.text) := by
  induction divisors generalizing text l with
  | nil => simpa using h
  | cons first divisors ih =>
      obtain ⟨next, later⟩ := List.forall_mem_cons.mp k
      rw [List.map_cons, String.join_cons, ← String.append_assoc, ← String.append_assoc,
        List.flatMap_cons, ← List.append_assoc]
      exact ih (h.over next) later

/-- The divisors are written behind the other factors. -/
theorem FactorsMention.product (h : FactorsMention factors l) :
    Mentions .product (Form.factorsText factors) l := by
  have each : ∀ f ∈ factors, Mentions .product f.text (namesIn f.text) :=
    fun f inside => h.each f.text (List.mem_map_of_mem inside)
  have above : ∀ text ∈ (factors.filter fun f => !f.divisor).map (·.text),
      Mentions .product text (namesIn text) := by
    intro text member
    obtain ⟨f, inside, rfl⟩ := List.mem_map.mp member
    exact each f (List.mem_of_mem_filter inside)
  have below : ∀ f ∈ factors.filter (·.divisor), Mentions .product f.text (namesIn f.text) :=
    fun f inside => each f (List.mem_of_mem_filter inside)
  have numerator := mentions_numerator above
  have parted := (List.filter_append_perm (fun f : Factor => !f.divisor) factors).flatMap_right fun f => namesIn f.text
  have names := h.names
  rw [List.flatMap_map] at names numerator
  simp only [List.flatMap_append, Bool.not_not] at parted
  refine Mentions.perm (mentions_quotient ?_ below) (parted.trans names)
  cases factors.foldl (fun sign f => sign != f.negative) false with
  | false => exact numerator
  | true => exact numerator.negated

/-- The text of an expression with its variables in every place, and its terms and factors. -/
structure FormMentions (form : Form) (names : List String) : Prop where
  text : ∀ binding, Mentions (Binding.level binding) (form.text binding) names
  terms : ∀ negative, TermsMention (form.terms negative) names
  factors : ∀ divisor, FactorsMention (form.factors divisor) names

theorem mentions_parenthesized {needed : Bool} {binding : Nat} (limit : Nat)
    (h : Mentions (Binding.level limit) text l) (fits : needed = false → binding ≤ limit) :
    Mentions (Binding.level binding) (parenthesized needed text) l := by
  obtain ⟨r, denotes, found⟩ := h
  exact ⟨r, denotes.parenthesized limit fits, found⟩

theorem mentions_primary (h : Mentions .primary text l) (binding : Nat) :
    Mentions (Binding.level binding) text l :=
  h.weaken (by cases Binding.level binding <;> decide)

theorem mentions_factor {place : Nat → String}
    (h : ∀ binding, Mentions (Binding.level binding) (place binding) l) (divisor negative : Bool) :
    FactorsMention [⟨divisor, negative, place (Form.factorBinding divisor)⟩] l := by
  apply AllMention.single
  cases divisor with
  | false => exact (h Binding.unary).weaken (by decide)
  | true => exact (h Binding.power).weaken (by decide)

theorem mentions_atom {place : Nat → String}
    (h : ∀ binding, Mentions (Binding.level binding) (place binding) l) : FormMentions (.atom place) l where
  text := h
  terms _ := ⟨List.cons_ne_nil _ _, .single (h Binding.product)⟩
  factors divisor := mentions_factor h divisor false

theorem mentions_ofTerms {terms : Bool → List (Bool × String)}
    (h : ∀ negative, TermsMention (terms negative) l) : FormMentions (.ofTerms terms) l := by
  have everywhere (binding : Nat) : Mentions (Binding.level binding)
      (parenthesized (binding > Binding.sum) (Form.termsText (terms false))) l :=
    mentions_parenthesized Binding.sum (h false).sum fun fits => not_lt.mp (of_decide_eq_false fits)
  exact { mentions_atom everywhere with terms := h }

theorem mentions_ofFactors {factors : Bool → List Factor}
    (h : ∀ divisor, FactorsMention (factors divisor) l) : FormMentions (.ofFactors factors) l := by
  have everywhere (binding : Nat) : Mentions (Binding.level binding)
      (parenthesized (binding > Binding.product) (Form.factorsText (factors false))) l :=
    mentions_parenthesized Binding.product (h false).product fun fits => not_lt.mp (of_decide_eq_false fits)
  exact { mentions_atom everywhere with factors := h }

theorem FormMentions.negated {form : Form} (h : FormMentions form l) : FormMentions form.negated l where
  text binding := by
    refine mentions_parenthesized Binding.product ?_ fun fits => not_lt.mp (of_decide_eq_false fits)
    exact (((h.text Binding.unary).weaken (by decide)).neg).weaken (by decide)
  terms negative := h.terms !negative
  factors divisor := mentions_factor h.text divisor true

theorem mentions_const (q : Rat) (binding : Nat) : Mentions (Binding.level binding)
    (parenthesized (binding ≥ Binding.unary && (q < 0 || !q.isInt)) (Number.text q)) [] := by
  cases small : decide (q < 0) || !q.isInt with
  | false =>
      rw [Bool.or_eq_false_iff, Bool.not_eq_false'] at small
      rw [Bool.and_false]
      exact mentions_primary (mentions_whole small.2 (not_lt.mp (of_decide_eq_false small.1))) binding
  | true =>
      rw [Bool.and_true]
      apply mentions_parenthesized Binding.product (mentions_number q)
      exact fun fits => Nat.le_of_lt_succ (not_le.mp (of_decide_eq_false fits))

theorem mentions_ofConst (q : Rat) : FormMentions (.ofConst q) [] := by
  have number := mentions_atom (mentions_const q)
  rw [Form.ofConst]
  split
  next => exact { number with factors := fun _ => .single (mentions_number (-q)) }
  next => exact number

/-- An indeterminate form is spelled like a variable. -/
theorem form_mentions (e : Expr) (named : ∀ name ∈ e.names, NamesVariable name) :
    FormMentions (form e) e.written := by
  have word {w : String} {e : Expr} (identifier : isIdentifier w = true) (alone : word? w = some e) :
      FormMentions (.atom fun _ => w) e.names :=
    mentions_atom (mentions_primary (Denotes.word identifier alone).mentions)
  induction e with
  | var name =>
      obtain ⟨identifier, free⟩ := named name List.mem_cons_self
      exact word identifier (word?_of_not_reserved free)
  | pi => exact word (w := "pi") rfl rfl
  | infinity => exact word (w := "oo") rfl rfl
  -- the word is not reserved, so what is read is a variable
  | undefined => exact word (w := "nan") rfl rfl
  | const q => exact mentions_ofConst q
  | neg a ih => exact (ih named).negated
  | add a b iha ihb =>
      obtain ⟨first, second⟩ := List.forall_mem_append.mp named
      exact mentions_ofTerms fun negative => ((iha first).terms negative).append ((ihb second).terms negative)
  | sub a b iha ihb =>
      obtain ⟨first, second⟩ := List.forall_mem_append.mp named
      exact mentions_ofTerms fun negative => ((iha first).terms negative).append ((ihb second).terms !negative)
  | mul a b iha ihb =>
      obtain ⟨first, second⟩ := List.forall_mem_append.mp named
      exact mentions_ofFactors fun divisor => ((iha first).factors divisor).append ((ihb second).factors divisor)
  | div a b iha ihb =>
      obtain ⟨first, second⟩ := List.forall_mem_append.mp named
      exact mentions_ofFactors fun divisor => ((iha first).factors divisor).append ((ihb second).factors !divisor)
  | pow a b iha ihb =>
      obtain ⟨first, second⟩ := List.forall_mem_append.mp named
      refine mentions_atom fun binding => ?_
      have base := (iha first).text Binding.power
      have exponent := (ihb second).text Binding.power
      apply mentions_parenthesized Binding.unary (base.pow (exponent.weaken (by decide)))
      exact fun fits => not_lt.mp (of_decide_eq_false fits)
  | app f a ih =>
      refine mentions_atom (mentions_primary ?_)
      split
      next euler =>
        obtain ⟨rfl, rfl⟩ := Expr.app.inj (Expr.eq_euler_of_isEuler euler)
        have constant : Mentions .primary "E" Expr.euler.names := (Denotes.word rfl rfl).mentions
        exact constant
      next => exact ((ih named).text Binding.loose).call f

/-- Whatever is written can be read. What is read has no indeterminate part and the symbols of
the expression, for an indeterminate part is spelled like a symbol. -/
theorem plain_text_keeps_symbols (e : Expr) (named : ∀ name ∈ e.symbols, NamesVariable name) :
    ∃ r, Expr.parse e.plain = .ok r ∧ r.hasUndefined = false ∧
      ∀ name, name ∈ r.symbols ↔ name ∈ e.symbols ∨ name = "nan" ∧ e.hasUndefined = true := by
  simp only [Expr.mem_symbols] at named ⊢
  obtain ⟨r, denotes, found⟩ := (form_mentions e named).text Binding.loose
  refine ⟨r, denotes.parse, denotes.hasUndefined, fun name => ?_⟩
  rw [found.mem_iff, Expr.mem_written_iff]

/-- Signs in front of an indeterminate form, of a divisor and in an exponent: the half is read
as two divisors, and the indeterminate form as one more symbol. -/
theorem indeterminate_quotient_keeps_symbols :
    let e : Expr := .div (.sub (.neg (.var "x_1")) (.neg .undefined))
      (.mul (.const (-1/2)) (.pow (.var "y") (.const (-2))))
    e.symbols = ["x_1", "y"] ∧ (∀ name ∈ e.symbols, NamesVariable name) ∧
      e.plain = "-(-x_1 + nan)/1/2/(y**(-2))" ∧
      ∃ r, Expr.parse e.plain = .ok r ∧ r.hasUndefined = false ∧
        ∀ name, name ∈ r.symbols ↔ name ∈ e.symbols ∨ name = "nan" ∧ e.hasUndefined = true := by
  intro e
  have symbols : e.symbols = ["x_1", "y"] := by decide +kernel
  have named : ∀ name ∈ e.symbols, NamesVariable name := by
    rw [symbols]
    have word {name : String} (identifier : isIdentifier name = true)
        (alone : word? name = some (.var name)) : NamesVariable name :=
      ⟨identifier, (word?_eq_var.mp alone).2⟩
    exact List.forall_mem_cons.mpr ⟨word rfl rfl, List.forall_mem_singleton.mpr (word rfl rfl)⟩
  exact ⟨symbols, named, by decide +kernel, plain_text_keeps_symbols e named⟩

end Plain
end SymbolicAlgebra
