import SymbolicAlgebra.Proofs.Grammar.Notation

/-! Texts put together from texts. An operator between two texts, or a sign in front of
one, may take hold of the first factor or term only: they are regrouped, and what is read
has the factors, divisors and terms that were meant. -/

namespace SymbolicAlgebra.Grammar

variable {level weak : Level} {ts us : List Token} {text other : String} {a b c d e r : Expr}

/-- The rules in the order of their strength. -/
def Level.rank : Level → Nat
  | .sum => 0 | .product => 1 | .signed => 2 | .power => 3 | .primary => 4

theorem Derives.atPower (h : Derives level ts e) (strong : 3 ≤ level.rank) : Derives .power ts e := by
  cases level with
  | primary => exact .primary h
  | power => exact h
  | _ => exact absurd strong (by decide)

theorem Derives.atSigned (h : Derives level ts e) (strong : 2 ≤ level.rank) : Derives .signed ts e := by
  cases level with
  | primary | power => exact .power (h.atPower (by decide))
  | signed => exact h
  | _ => exact absurd strong (by decide)

theorem Derives.atProduct (h : Derives level ts e) (strong : 1 ≤ level.rank) : Derives .product ts e := by
  cases level with
  | primary | power | signed => exact .signed (h.atSigned (by decide))
  | product => exact h
  | sum => exact absurd strong (by decide)

/-- A stronger rule may stand where a weaker one is asked for. -/
theorem Derives.weaken (h : Derives level ts e) (le : weak.rank ≤ level.rank) : Derives weak ts e := by
  cases weak with
  | sum =>
      cases level with
      | sum => exact h
      | _ => exact .product (h.atProduct (by decide))
  | product => exact h.atProduct le
  | signed => exact h.atSigned le
  | power => exact h.atPower le
  | primary =>
      cases level with
      | primary => exact h
      | _ => exact absurd le (by decide)

/-- The text is one of the rule and stands for the expression. -/
def Denotes (level : Level) (text : String) (e : Expr) : Prop :=
  ∃ ts, Derives level ts e ∧ Spelling ts text.toList

/-- What is read where factors are joined one by one to a product, or terms to a sum, or
where a sign stands in front of a product. -/
inductive Regrouped : Expr → Expr → Prop where
  | rfl {e : Expr} : Regrouped e e
  | add_add {a b c d : Expr} (h : Regrouped (.add a b) c) : Regrouped (.add a (.add b d)) (.add c d)
  | add_sub {a b c d : Expr} (h : Regrouped (.add a b) c) : Regrouped (.add a (.sub b d)) (.sub c d)
  | mul_mul {a b c d : Expr} (h : Regrouped (.mul a b) c) : Regrouped (.mul a (.mul b d)) (.mul c d)
  | mul_div {a b c d : Expr} (h : Regrouped (.mul a b) c) : Regrouped (.mul a (.div b d)) (.div c d)
  | neg_mul {a b c : Expr} (h : Regrouped (.neg a) c) : Regrouped (.neg (.mul a b)) (.mul c b)
  | neg_div {a b c : Expr} (h : Regrouped (.neg a) c) : Regrouped (.neg (.div a b)) (.div c b)

theorem Denotes.parse (h : Denotes .sum text e) : Expr.parse text = .ok e := by
  obtain ⟨ts, derived, spelled⟩ := h
  exact parse_of_derives derived spelled

theorem Denotes.weaken (h : Denotes level text e) (le : weak.rank ≤ level.rank) : Denotes weak text e := by
  obtain ⟨ts, derived, spelled⟩ := h
  exact ⟨ts, derived.weaken le, spelled⟩

theorem Denotes.word {w : String} (identifier : isIdentifier w = true) (alone : word? w = some e) :
    Denotes .primary w e :=
  ⟨_, .word alone, .single (Token.spells_word identifier)⟩

theorem Denotes.numeral (n : Nat) : Denotes .primary (toString n) (.const n) := by
  have digits : ∀ c ∈ Nat.toDigits 10 n, c.isDigit = true := by
    intro c member
    exact Nat.isDigit_of_mem_toDigits (by decide) (by decide) member
  have value := value?_digits (Nat.toDigits 10 n)
  rw [Nat.ofDigitChars_ten_toDigits] at value
  refine ⟨_, .number value, ?_⟩
  rw [Nat.toString_eq_repr, Nat.toList_repr]
  exact .single (.number Nat.toDigits_ne_nil digits)

theorem spelling_operator {op : Token} {cs ds : List Char} (first : op.Spells ds) (others : Spelling us cs) :
    Spelling (op :: us) (ds ++ cs) :=
  (Spelling.single first).append others

theorem spelling_spaced {op : Token} {c : Char} {cs : List Char} (first : op.Spells [c])
    (others : Spelling us cs) : Spelling (op :: us) ([' ', c, ' '] ++ cs) := by
  have blank : ∀ c ∈ [' '], Token.isBlank c = true := by simp [Token.isBlank]
  exact .cons blank first (others.after_blanks blank)

/-- An operator between two texts, with blanks around it or without. -/
theorem Denotes.joined {la lb : Level} {op : Token} {sign : String} {P : Expr → Prop} (h : Denotes la text a)
    (k : Denotes lb other b) (spelled : ∀ {us cs}, Spelling us cs → Spelling (op :: us) (sign.toList ++ cs))
    (join : ∀ {ts us}, Derives la ts a → Derives lb us b → ∃ r, Derives level (ts ++ op :: us) r ∧ P r) :
    ∃ r, Denotes level (text ++ sign ++ other) r ∧ P r := by
  obtain ⟨ts, left, before⟩ := h
  obtain ⟨us, right, after⟩ := k
  obtain ⟨r, whole, property⟩ := join left right
  refine ⟨r, ⟨_, whole, ?_⟩, property⟩
  rw [String.toList_append, String.toList_append, List.append_assoc]
  exact before.append (spelled after)

theorem Denotes.operation {la lb : Level} {op : Token} {sign : String} (h : Denotes la text a)
    (k : Denotes lb other b) (spelled : ∀ {us cs}, Spelling us cs → Spelling (op :: us) (sign.toList ++ cs))
    (join : ∀ {ts us}, Derives la ts a → Derives lb us b → Derives level (ts ++ op :: us) e) :
    Denotes level (text ++ sign ++ other) e := by
  obtain ⟨r, whole, rfl⟩ := h.joined (P := (· = e)) k spelled fun left right => ⟨e, join left right, .refl e⟩
  exact whole

theorem Denotes.parens (h : Denotes .sum text e) : Denotes .primary ("(" ++ text ++ ")") e := by
  obtain ⟨ts, derived, spelled⟩ := h
  refine ⟨_, .parens derived, ?_⟩
  rw [String.toList_append, String.toList_append]
  exact (spelling_operator .openParen spelled).append (.single .closeParen)

theorem Denotes.call {w : String} {f : Fn} (identifier : isIdentifier w = true) (spelling : w ∈ f.words)
    (h : Denotes .sum text a) : Denotes .primary (w ++ "(" ++ text ++ ")") (.app f a) := by
  obtain ⟨ts, derived, spelled⟩ := h
  have called := (Spelling.single (Token.spells_word identifier)).append
    (spelling_operator .openParen (spelled.append (.single .closeParen)))
  refine ⟨_, .call (call?_of_mem_words spelling) derived, ?_⟩
  rw [String.toList_append, String.toList_append, String.toList_append, List.append_assoc, List.append_assoc]
  exact called

theorem Denotes.neg (h : Denotes .signed text a) : Denotes .signed ("-" ++ text) (.neg a) := by
  obtain ⟨ts, derived, spelled⟩ := h
  refine ⟨_, .neg derived, ?_⟩
  rw [String.toList_append]
  exact spelling_operator .minus spelled

theorem Denotes.pow (h : Denotes .primary text a) (k : Denotes .signed other b) :
    Denotes .power (text ++ "**" ++ other) (.pow a b) :=
  h.operation k (spelling_operator .stars) .pow

theorem Denotes.div (h : Denotes .product text a) (k : Denotes .signed other b) :
    Denotes .product (text ++ "/" ++ other) (.div a b) :=
  h.operation k (spelling_operator .slash) .div

theorem Denotes.sub (h : Denotes .sum text a) (k : Denotes .product other b) :
    Denotes .sum (text ++ " - " ++ other) (.sub a b) :=
  h.operation k (spelling_spaced .minus) .sub

theorem Derives.addSum (h : Derives .sum ts a) (k : Derives .sum us b) :
    ∃ r, Derives .sum (ts ++ .plus :: us) r ∧ Regrouped (.add a b) r := by
  generalize same : Level.sum = level at k
  induction k with
  | product k => exact ⟨_, .add h k, .rfl⟩
  | add left right ih =>
      obtain ⟨r, joined, regrouped⟩ := ih same
      rw [← List.cons_append, ← List.append_assoc]
      exact ⟨_, .add joined right, .add_add regrouped⟩
  | sub left right ih =>
      obtain ⟨r, joined, regrouped⟩ := ih same
      rw [← List.cons_append, ← List.append_assoc]
      exact ⟨_, .sub joined right, .add_sub regrouped⟩
  | _ => cases same

theorem Derives.times (h : Derives .product ts a) (k : Derives .product us b) :
    ∃ r, Derives .product (ts ++ .star :: us) r ∧ Regrouped (.mul a b) r := by
  generalize same : Level.product = level at k
  induction k with
  | signed k => exact ⟨_, .mul h k, .rfl⟩
  | mul left right ih =>
      obtain ⟨r, joined, regrouped⟩ := ih same
      rw [← List.cons_append, ← List.append_assoc]
      exact ⟨_, .mul joined right, .mul_mul regrouped⟩
  | div left right ih =>
      obtain ⟨r, joined, regrouped⟩ := ih same
      rw [← List.cons_append, ← List.append_assoc]
      exact ⟨_, .div joined right, .mul_div regrouped⟩
  | _ => cases same

theorem Derives.negated (h : Derives .product ts a) :
    ∃ r, Derives .product (.minus :: ts) r ∧ Regrouped (.neg a) r := by
  generalize same : Level.product = level at h
  induction h with
  | signed h => exact ⟨_, .signed (.neg h), .rfl⟩
  | mul left right ih =>
      obtain ⟨r, signed, regrouped⟩ := ih same
      exact ⟨_, .mul signed right, .neg_mul regrouped⟩
  | div left right ih =>
      obtain ⟨r, signed, regrouped⟩ := ih same
      exact ⟨_, .div signed right, .neg_div regrouped⟩
  | _ => cases same

theorem Denotes.plus (h : Denotes .sum text a) (k : Denotes .sum other b) :
    ∃ r, Denotes .sum (text ++ " + " ++ other) r ∧ Regrouped (.add a b) r :=
  h.joined k (spelling_spaced .plus) Derives.addSum

theorem Denotes.times (h : Denotes .product text a) (k : Denotes .product other b) :
    ∃ r, Denotes .product (text ++ "*" ++ other) r ∧ Regrouped (.mul a b) r :=
  h.joined k (spelling_operator .star) Derives.times

theorem Denotes.negated (h : Denotes .product text a) :
    ∃ r, Denotes .product ("-" ++ text) r ∧ Regrouped (.neg a) r := by
  obtain ⟨ts, derived, spelled⟩ := h
  obtain ⟨r, signed, regrouped⟩ := derived.negated
  refine ⟨r, ⟨_, signed, ?_⟩, regrouped⟩
  rw [String.toList_append]
  exact spelling_operator .minus spelled

end SymbolicAlgebra.Grammar
