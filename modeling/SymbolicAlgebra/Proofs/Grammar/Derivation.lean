import SymbolicAlgebra.Grammar.Expression

/-! The expression language as a grammar over tokens, apart from the order in which
they are read. Sums and products are left recursive, as they associate to the left. -/

namespace SymbolicAlgebra.Grammar

/-- The rules of the grammar, the weakest binding first. -/
inductive Level where
  | sum | product | signed | power | primary
  deriving DecidableEq

/-- The tokens that a rule derives and the expression that they stand for. -/
inductive Derives : Level → List Token → Expr → Prop where
  | number {d : Decimal} {q : Rat} (value : d.value? = some q) :
      Derives .primary [.number d] (.const q)
  | word {w : String} {e : Expr} (alone : word? w = some e) : Derives .primary [.word w] e
  | call {w : String} {ts : List Token} {a e : Expr} (called : call? w a = some e)
      (arg : Derives .sum ts a) : Derives .primary (.word w :: .openParen :: (ts ++ [.closeParen])) e
  | parens {ts : List Token} {e : Expr} (inner : Derives .sum ts e) :
      Derives .primary (.openParen :: (ts ++ [.closeParen])) e
  | primary {ts : List Token} {e : Expr} (h : Derives .primary ts e) : Derives .power ts e
  | pow {ts us : List Token} {a b : Expr} (base : Derives .primary ts a)
      (exponent : Derives .signed us b) : Derives .power (ts ++ .power :: us) (.pow a b)
  | power {ts : List Token} {e : Expr} (h : Derives .power ts e) : Derives .signed ts e
  | neg {ts : List Token} {a : Expr} (h : Derives .signed ts a) :
      Derives .signed (.minus :: ts) (.neg a)
  | plus {ts : List Token} {a : Expr} (h : Derives .signed ts a) :
      Derives .signed (.plus :: ts) a
  | signed {ts : List Token} {e : Expr} (h : Derives .signed ts e) : Derives .product ts e
  | mul {ts us : List Token} {a b : Expr} (left : Derives .product ts a)
      (right : Derives .signed us b) : Derives .product (ts ++ .star :: us) (.mul a b)
  | div {ts us : List Token} {a b : Expr} (left : Derives .product ts a)
      (right : Derives .signed us b) : Derives .product (ts ++ .slash :: us) (.div a b)
  | product {ts : List Token} {e : Expr} (h : Derives .product ts e) : Derives .sum ts e
  | add {ts us : List Token} {a b : Expr} (left : Derives .sum ts a)
      (right : Derives .product us b) : Derives .sum (ts ++ .plus :: us) (.add a b)
  | sub {ts us : List Token} {a b : Expr} (left : Derives .sum ts a)
      (right : Derives .product us b) : Derives .sum (ts ++ .minus :: us) (.sub a b)

variable {level : Level} {ts us : List Token} {e : Expr}

/-- Every rule may stand where a weaker one is asked for. -/
theorem Derives.toSum (h : Derives .primary ts e) : Derives .sum ts e :=
  .product (.signed (.power (.primary h)))

/-- The tokens that a derivation starts with; only a rule with signs starts with one. -/
def opens (level : Level) : Token → Bool
  | .number _ | .word _ | .openParen => true
  | .plus | .minus => level ≠ .primary ∧ level ≠ .power
  | _ => false

theorem opens_of_power {level : Level} {t : Token} (h : opens .power t = true) :
    opens level t = true := by
  cases t <;> simp_all [opens]

theorem Derives.head (h : Derives level ts e) : ∃ t us, ts = t :: us ∧ opens level t = true := by
  induction h with
  | number | word | call | parens | neg | plus => exact ⟨_, _, rfl, rfl⟩
  | power _ ih =>
      obtain ⟨t, us, rfl, opened⟩ := ih
      exact ⟨t, us, rfl, opens_of_power opened⟩
  | pow _ _ ih | mul _ _ ih | div _ _ ih | add _ _ ih | sub _ _ ih =>
      obtain ⟨t, us, rfl, opened⟩ := ih
      exact ⟨t, _, rfl, opened⟩
  | primary _ ih | signed _ ih | product _ ih => exact ih

end SymbolicAlgebra.Grammar
