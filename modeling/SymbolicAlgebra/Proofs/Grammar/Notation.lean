import Mathlib.Algebra.Ring.Rat
import SymbolicAlgebra.Proofs.Grammar.Reading
import SymbolicAlgebra.Proofs.Grammar.Spelling

/-! Expressions and their texts. An expression has many texts, with more or fewer blanks
and parentheses; each of them is read as the expression that it is written for. -/

namespace SymbolicAlgebra

open Grammar

variable {text : String} {a b e : Expr} {ts us : List Token} {cs ds : List Char} {level : Level}

theorem parse_of_derives (h : Derives .sum ts e) (spelled : Spelling ts text.toList) :
    Expr.parse text = .ok e := by
  have tokens := spelled.tokens h.compact.apart
  rw [← tokens] at h
  rw [Expr.parse, expression_reads h]

/-- The tokens that an expression is written with where a rule is asked for. An operand
that binds weaker than its place needs parentheses, and every other one may have them. -/
inductive Notates : Level → List Token → Expr → Prop where
  | numeral {digits : List Char} (nonempty : digits ≠ [])
      (all : ∀ c ∈ digits, c.isDigit = true) :
      Notates .primary [.number ⟨digits, [], 0⟩] (.const (Nat.ofDigitChars 10 digits 0 : Nat))
  | var {name : String} (identifier : isIdentifier name = true) (free : ¬ Reserved name) :
      Notates .primary [.word name] (.var name)
  | pi : Notates .primary [.word "pi"] .pi
  | infinity : Notates .primary [.word "oo"] .infinity
  | app {f : Fn} {name : String} {ts : List Token} {a : Expr} (spelling : name ∈ f.words)
      (arg : Notates .sum ts a) :
      Notates .primary (.word name :: .openParen :: (ts ++ [.closeParen])) (.app f a)
  | parens {ts : List Token} {e : Expr} (inner : Notates .sum ts e) :
      Notates .primary (.openParen :: (ts ++ [.closeParen])) e
  | primary {ts : List Token} {e : Expr} (h : Notates .primary ts e) : Notates .power ts e
  | pow {ts us : List Token} {a b : Expr} (base : Notates .primary ts a)
      (exponent : Notates .signed us b) : Notates .power (ts ++ .power :: us) (.pow a b)
  | power {ts : List Token} {e : Expr} (h : Notates .power ts e) : Notates .signed ts e
  | neg {ts : List Token} {a : Expr} (h : Notates .signed ts a) :
      Notates .signed (.minus :: ts) (.neg a)
  | signed {ts : List Token} {e : Expr} (h : Notates .signed ts e) : Notates .product ts e
  | mul {ts us : List Token} {a b : Expr} (left : Notates .product ts a)
      (right : Notates .signed us b) : Notates .product (ts ++ .star :: us) (.mul a b)
  | div {ts us : List Token} {a b : Expr} (left : Notates .product ts a)
      (right : Notates .signed us b) : Notates .product (ts ++ .slash :: us) (.div a b)
  | product {ts : List Token} {e : Expr} (h : Notates .product ts e) : Notates .sum ts e
  | add {ts us : List Token} {a b : Expr} (left : Notates .sum ts a)
      (right : Notates .product us b) : Notates .sum (ts ++ .plus :: us) (.add a b)
  | sub {ts us : List Token} {a b : Expr} (left : Notates .sum ts a)
      (right : Notates .product us b) : Notates .sum (ts ++ .minus :: us) (.sub a b)

/-- The text spells the tokens that the expression is written with. -/
def Writes (text : String) (e : Expr) : Prop := ∃ ts, Notates .sum ts e ∧ Spelling ts text.toList

theorem value?_digits (digits : List Char) :
    Decimal.value? ⟨digits, [], 0⟩ = some (Nat.ofDigitChars 10 digits 0 : Nat) := by
  have value : Decimal.natOfDigits digits = Nat.ofDigitChars 10 digits 0 := rfl
  simp [Decimal.value?, Decimal.scale?, Decimal.inWord?, value]

theorem Notates.derives (h : Notates level ts e) : Derives level ts e := by
  induction h with
  | @numeral digits => exact .number (value?_digits digits)
  | var _ free => exact .word (word?_of_not_reserved free)
  | pi | infinity => exact .word rfl
  | app spelling _ ih => exact .call (call?_of_mem_words spelling) ih
  | parens _ ih => exact .parens ih
  | primary _ ih => exact .primary ih
  | pow _ _ iha ihb => exact .pow iha ihb
  | power _ ih => exact .power ih
  | neg _ ih => exact .neg ih
  | signed _ ih => exact .signed ih
  | mul _ _ iha ihb => exact .mul iha ihb
  | div _ _ iha ihb => exact .div iha ihb
  | product _ ih => exact .product ih
  | add _ _ iha ihb => exact .add iha ihb
  | sub _ _ iha ihb => exact .sub iha ihb

theorem Writes.parse (h : Writes text e) : Expr.parse text = .ok e := by
  obtain ⟨ts, written, spelled⟩ := h
  exact parse_of_derives written.derives spelled

/-- The trees that have a text: numbers are natural, and no variable has a reserved name. -/
def Writable : Expr → Prop
  | .const q => ∃ n : Nat, q = n
  | .var name => isIdentifier name = true ∧ ¬ Reserved name
  | .pi | .infinity => True
  | .undefined => False
  | .add a b | .sub a b | .mul a b | .div a b | .pow a b => Writable a ∧ Writable b
  | .neg a | .app _ a => Writable a

/-- Only such trees are written. -/
theorem Notates.writable (h : Notates level ts e) : Writable e := by
  induction h with
  | numeral => exact ⟨_, rfl⟩
  | var identifier free => exact ⟨identifier, free⟩
  | pi | infinity => trivial
  | app _ _ ih | parens _ ih | primary _ ih | power _ ih | neg _ ih | signed _ ih
  | product _ ih => exact ih
  | pow _ _ iha ihb | mul _ _ iha ihb | div _ _ iha ihb | add _ _ iha ihb
  | sub _ _ iha ihb => exact ⟨iha, ihb⟩

/-- The expression has a text at the level. -/
def WrittenAt (level : Level) (e : Expr) : Prop := ∃ ts cs, Notates level ts e ∧ Spelling ts cs

theorem Notates.toSum (h : Notates .primary ts e) : Notates .sum ts e :=
  .product (.signed (.power (.primary h)))

/-- Parentheses carry a text to every level. -/
theorem WrittenAt.parens (h : WrittenAt .sum e) (level : Level) : WrittenAt level e := by
  obtain ⟨ts, cs, written, spelled⟩ := h
  have enclosed : Notates .primary (.openParen :: (ts ++ [.closeParen])) e := .parens written
  refine ⟨_, _, ?_, .append (.single .openParen) (spelled.append (.single .closeParen))⟩
  cases level with
  | sum => exact enclosed.toSum
  | product => exact .signed (.power (.primary enclosed))
  | signed => exact .power (.primary enclosed)
  | power => exact .primary enclosed
  | primary => exact enclosed

/-- Two texts with an operator between them. -/
theorem WrittenAt.joined {la lb level : Level} {op : Token} (h : WrittenAt la a) (k : WrittenAt lb b)
    (spelled : op.Spells ds)
    (join : ∀ {ts us}, Notates la ts a → Notates lb us b → Notates level (ts ++ op :: us) e) :
    WrittenAt level e := by
  obtain ⟨ts, cs, left, before⟩ := h
  obtain ⟨us, rs, right, after⟩ := k
  exact ⟨_, _, join left right, before.append ((Spelling.single spelled).append after)⟩

theorem Writable.writtenAt (h : Writable e) : ∀ level, WrittenAt level e := by
  induction e with
  | const q =>
      obtain ⟨n, rfl⟩ := h
      have digits : ∀ c ∈ Nat.toDigits 10 n, c.isDigit = true := by
        intro c member
        exact Nat.isDigit_of_mem_toDigits (by decide) (by decide) member
      have numeral := Notates.numeral Nat.toDigits_ne_nil digits
      rw [Nat.ofDigitChars_ten_toDigits] at numeral
      exact WrittenAt.parens
        ⟨_, _, numeral.toSum, .single (.number Nat.toDigits_ne_nil digits)⟩
  | var name =>
      exact WrittenAt.parens
        ⟨_, _, Notates.toSum (.var h.1 h.2), .single (Token.spells_word h.1)⟩
  | pi => exact WrittenAt.parens ⟨_, _, Notates.toSum .pi, .single (Token.spells_word rfl)⟩
  | infinity =>
      exact WrittenAt.parens ⟨_, _, Notates.toSum .infinity, .single (Token.spells_word rfl)⟩
  | undefined => exact h.elim
  | add a b iha ihb => exact ((iha h.1 .sum).joined (ihb h.2 .product) .plus .add).parens
  | sub a b iha ihb => exact ((iha h.1 .sum).joined (ihb h.2 .product) .minus .sub).parens
  | mul a b iha ihb =>
      apply WrittenAt.parens
      apply (iha h.1 .product).joined (ihb h.2 .signed) .star
      intro ts us left right
      exact .product (.mul left right)
  | div a b iha ihb =>
      apply WrittenAt.parens
      apply (iha h.1 .product).joined (ihb h.2 .signed) .slash
      intro ts us left right
      exact .product (.div left right)
  | pow a b iha ihb =>
      apply WrittenAt.parens
      apply (iha h.1 .primary).joined (ihb h.2 .signed) .stars
      intro ts us base exponent
      exact .product (.signed (.power (.pow base exponent)))
  | neg a ih =>
      obtain ⟨ts, cs, written, spelled⟩ := ih h .signed
      exact WrittenAt.parens
        ⟨_, _, .product (.signed (.neg written)), (Spelling.single .minus).append spelled⟩
  | app f a ih =>
      obtain ⟨ts, cs, written, spelled⟩ := ih h .sum
      obtain ⟨name, member, identifier⟩ := f.exists_word
      have called := Spelling.single (Token.spells_word identifier)
      have enclosed := (Spelling.single .openParen).append (spelled.append (.single .closeParen))
      exact WrittenAt.parens
        ⟨_, _, Notates.toSum (.app member written), called.append enclosed⟩

/-- Every such tree has a text, and every text that is written for it is read as it. -/
theorem notation_is_read (h : Writable e) :
    (∃ text, Writes text e) ∧ ∀ text, Writes text e → Expr.parse text = .ok e := by
  constructor
  · obtain ⟨ts, cs, written, spelled⟩ := h.writtenAt .sum
    exact ⟨String.ofList cs, ts, written, by rwa [String.toList_ofList]⟩
  · intro text written
    exact written.parse

/-- A sign binds weaker than the power behind it, also within an exponent. -/
theorem signed_powers_are_read :
    Expr.parse "-x**-y ^ z*(w)" = .ok
      (.mul (.neg (.pow (.var "x") (.neg (.pow (.var "y") (.var "z"))))) (.var "w")) := by
  have free (name : String) (h : name ∈ ["x", "y", "z", "w"]) : ¬ Reserved name := by
    rintro (constant | ⟨f, head⟩)
    · simp only [List.mem_cons, List.not_mem_nil, or_false] at h
      rcases h with rfl | rfl | rfl | rfl <;> simp at constant
    · have called := Fn.ofWord?_eq_some.mpr head
      simp only [List.mem_cons, List.not_mem_nil, or_false] at h
      rcases h with rfl | rfl | rfl | rfl <;> cases called
  have x : Notates .primary [.word "x"] (.var "x") := .var rfl (free "x" (by simp))
  have y : Notates .primary [.word "y"] (.var "y") := .var rfl (free "y" (by simp))
  have z : Notates .primary [.word "z"] (.var "z") := .var rfl (free "z" (by simp))
  have w : Notates .primary [.word "w"] (.var "w") := .var rfl (free "w" (by simp))
  have exponent := Notates.neg (.power (.pow y (.power (.primary z))))
  have base := Notates.neg (.power (.pow x exponent))
  have written := Notates.product (.mul (.signed base) (.power (.primary (.parens w.toSum))))
  have letter (c : Char) (h : c.isAlpha = true) : Spelling [.word (String.ofList [c])] [c] :=
    .single (.word h (by simp))
  have blank : ∀ c ∈ [' '], Token.isBlank c = true := by simp [Token.isBlank]
  have caret := Spelling.cons blank .caret (.nil blank)
  have spelled := (Spelling.single .minus).append ((letter 'x' rfl).append
    ((Spelling.single .stars).append ((Spelling.single .minus).append ((letter 'y' rfl).append
    (caret.append ((letter 'z' rfl).append ((Spelling.single .star).append
    ((Spelling.single .openParen).append ((letter 'w' rfl).append (.single .closeParen))))))))))
  exact (notation_is_read written.writable).2 _ ⟨_, written, spelled⟩

end SymbolicAlgebra
