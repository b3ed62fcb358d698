import SymbolicAlgebra.Proofs.Grammar.Derivation

/-! What the descent reads is derived by the grammar. Each rule is shown to read a
derivation if the rules that it calls, with one level of depth less, do; a loop extends the
derivation that it is entered with. -/

namespace SymbolicAlgebra.Grammar

variable {level : Level} {ts : List Token} {ls rest : List Lexeme} {a e : Expr} {depth : Nat}

theorem ok_of_named {α : Type} {cause : SyntaxCause} {reading : Reading α} {result : α × List Lexeme}
    (h : named cause reading = .ok result) : reading = .ok result := by
  unfold named at h
  split at h
  next => cases h
  next => exact h

/-- Tokens in front of the rest that, after the given ones, derive the expression. -/
def Extends (level : Level) (ts : List Token) (ls : List Lexeme) (e : Expr) (rest : List Lexeme) : Prop :=
  ∃ read, ls = read ++ rest ∧ Derives level (ts ++ read.map Lexeme.token) e

/-- The rules that have a level of depth left read derivations. -/
structure SoundAt (depth : Nat) : Prop where
  sum {ls rest : List Lexeme} {e : Expr} (h : sum depth ls = .ok (e, rest)) :
    Extends .sum [] ls e rest
  sumRest {ts : List Token} {ls rest : List Lexeme} {a e : Expr} (before : Derives .sum ts a)
    (h : sumRest depth a ls = .ok (e, rest)) : Extends .sum ts ls e rest
  product {ls rest : List Lexeme} {e : Expr} (h : product depth ls = .ok (e, rest)) :
    Extends .product [] ls e rest
  productRest {ts : List Token} {ls rest : List Lexeme} {a e : Expr} (before : Derives .product ts a)
    (h : productRest depth a ls = .ok (e, rest)) : Extends .product ts ls e rest
  signed {ls rest : List Lexeme} {e : Expr} (h : signed depth ls = .ok (e, rest)) :
    Extends .signed [] ls e rest
  power {ls rest : List Lexeme} {e : Expr} (h : power depth ls = .ok (e, rest)) :
    Extends .power [] ls e rest
  primary {ls rest : List Lexeme} {e : Expr} (h : primary depth ls = .ok (e, rest)) :
    Extends .primary [] ls e rest
  enclosed {ls rest : List Lexeme} {e : Expr} (h : enclosed depth ls = .ok (e, rest)) :
    ∃ read finish, ls = read ++ ⟨.closeParen, finish⟩ :: rest ∧ Derives .sum (read.map Lexeme.token) e

theorem Extends.nothing (h : Derives level ts e) : Extends level ts rest e rest :=
  ⟨[], rfl, by simpa using h⟩

/-- What is read after what has been read. -/
theorem Extends.more (read : List Lexeme) (h : Extends level (ts ++ read.map Lexeme.token) ls e rest) :
    Extends level ts (read ++ ls) e rest := by
  obtain ⟨further, rfl, derived⟩ := h
  refine ⟨read ++ further, by rw [List.append_assoc], ?_⟩
  rwa [List.map_append, ← List.append_assoc]

namespace SoundAt

variable (S : SoundAt depth)
include S

theorem sum_succ (h : Grammar.sum (depth + 1) ls = .ok (e, rest)) : Extends .sum [] ls e rest := by
  rw [Grammar.sum] at h
  split at h
  next => cases h
  next a tokens first =>
    obtain ⟨read, rfl, derived⟩ := S.product first
    exact (S.sumRest derived.product h).more read

/-- One turn of the loop of sums: an operator and a product. -/
theorem sumRest_succ (before : Derives .sum ts a) (h : Grammar.sumRest (depth + 1) a ls = .ok (e, rest)) :
    Extends .sum ts ls e rest := by
  unfold Grammar.sumRest at h
  split at h
  next start tokens =>
    split at h
    next => cases h
    next b tokens second =>
      obtain ⟨read, rfl, derived⟩ := S.product (ok_of_named second)
      exact (S.sumRest (before.add derived) h).more (⟨.plus, start⟩ :: read)
  next start tokens =>
    split at h
    next => cases h
    next b tokens second =>
      obtain ⟨read, rfl, derived⟩ := S.product (ok_of_named second)
      exact (S.sumRest (before.sub derived) h).more (⟨.minus, start⟩ :: read)
  next =>
    obtain ⟨rfl, rfl⟩ := Prod.mk.inj (Except.ok.inj h)
    exact .nothing before

theorem product_succ (h : Grammar.product (depth + 1) ls = .ok (e, rest)) :
    Extends .product [] ls e rest := by
  rw [Grammar.product] at h
  split at h
  next => cases h
  next a tokens first =>
    obtain ⟨read, rfl, derived⟩ := S.signed first
    exact (S.productRest derived.signed h).more read

theorem productRest_succ (before : Derives .product ts a)
    (h : Grammar.productRest (depth + 1) a ls = .ok (e, rest)) : Extends .product ts ls e rest := by
  unfold Grammar.productRest at h
  split at h
  next start tokens =>
    split at h
    next => cases h
    next b tokens second =>
      obtain ⟨read, rfl, derived⟩ := S.signed (ok_of_named second)
      exact (S.productRest (before.mul derived) h).more (⟨.star, start⟩ :: read)
  next start tokens =>
    split at h
    next => cases h
    next b tokens second =>
      obtain ⟨read, rfl, derived⟩ := S.signed (ok_of_named second)
      exact (S.productRest (before.div derived) h).more (⟨.slash, start⟩ :: read)
  next =>
    obtain ⟨rfl, rfl⟩ := Prod.mk.inj (Except.ok.inj h)
    exact .nothing before

theorem signed_succ (h : Grammar.signed (depth + 1) ls = .ok (e, rest)) : Extends .signed [] ls e rest := by
  unfold Grammar.signed at h
  split at h
  next start tokens =>
    split at h
    next => cases h
    next a tokens operand =>
      obtain ⟨rfl, rfl⟩ := Prod.mk.inj (Except.ok.inj h)
      obtain ⟨read, rfl, derived⟩ := S.signed operand
      exact ⟨⟨.minus, start⟩ :: read, rfl, derived.neg⟩
  next start tokens =>
    obtain ⟨read, rfl, derived⟩ := S.signed h
    exact ⟨⟨.plus, start⟩ :: read, rfl, derived.plus⟩
  next =>
    obtain ⟨read, rfl, derived⟩ := S.power h
    exact ⟨read, rfl, derived.power⟩

theorem power_succ (h : Grammar.power (depth + 1) ls = .ok (e, rest)) : Extends .power [] ls e rest := by
  rw [Grammar.power] at h
  split at h
  next => cases h
  next base start tokens first =>
    obtain ⟨read, rfl, derived⟩ := S.primary first
    split at h
    next => cases h
    next exponent tokens second =>
      obtain ⟨rfl, rfl⟩ := Prod.mk.inj (Except.ok.inj h)
      obtain ⟨others, rfl, derived'⟩ := S.signed (ok_of_named second)
      exact ⟨read ++ ⟨.power, start⟩ :: others, by simp, by simpa using derived.pow derived'⟩
  next base tokens _ first =>
    obtain ⟨rfl, rfl⟩ := Prod.mk.inj (Except.ok.inj h)
    obtain ⟨read, rfl, derived⟩ := S.primary first
    exact ⟨read, rfl, derived.primary⟩

theorem primary_succ (h : Grammar.primary (depth + 1) ls = .ok (e, rest)) :
    Extends .primary [] ls e rest := by
  unfold Grammar.primary at h
  split at h
  next start tokens =>
    obtain ⟨read, finish, rfl, derived⟩ := S.enclosed h
    exact ⟨⟨.openParen, start⟩ :: (read ++ [⟨.closeParen, finish⟩]), by simp, by simpa using derived.parens⟩
  next d start tokens =>
    split at h
    next q value =>
      obtain ⟨rfl, rfl⟩ := Prod.mk.inj (Except.ok.inj h)
      exact ⟨[⟨.number d, start⟩], rfl, .number value⟩
    next => cases h
  next w name start tokens =>
    split at h
    next => cases h
    next arg tokens inner =>
      obtain ⟨read, finish, rfl, derived⟩ := S.enclosed inner
      split at h
      next r called =>
        obtain ⟨rfl, rfl⟩ := Prod.mk.inj (Except.ok.inj h)
        exact ⟨⟨.word w, name⟩ :: ⟨.openParen, start⟩ :: (read ++ [⟨.closeParen, finish⟩]), by simp,
          by simpa using Derives.call called derived⟩
      next => cases h
  next w start tokens _ =>
    split at h
    next r alone =>
      obtain ⟨rfl, rfl⟩ := Prod.mk.inj (Except.ok.inj h)
      exact ⟨[⟨.word w, start⟩], rfl, .word alone⟩
    next => cases h
  next => cases h

theorem enclosed_succ (h : Grammar.enclosed (depth + 1) ls = .ok (e, rest)) :
    ∃ read finish, ls = read ++ ⟨.closeParen, finish⟩ :: rest ∧
      Derives .sum (read.map Lexeme.token) e := by
  rw [Grammar.enclosed] at h
  split at h
  next => cases h
  next a finish tokens inner =>
    obtain ⟨rfl, rfl⟩ := Prod.mk.inj (Except.ok.inj h)
    obtain ⟨read, rfl, derived⟩ := S.sum inner
    exact ⟨read, finish, rfl, derived⟩
  next => cases h

end SoundAt

theorem soundAt (depth : Nat) : SoundAt depth := by
  induction depth with
  | zero => constructor <;> intros <;> contradiction
  | succ depth S =>
      exact ⟨S.sum_succ, S.sumRest_succ, S.product_succ, S.productRest_succ, S.signed_succ,
        S.power_succ, S.primary_succ, S.enclosed_succ⟩

/-- An expression is read off tokens that derive it. -/
theorem expression_derived (h : expression ls = .ok (e, rest)) :
    ∃ read, ls = read ++ rest ∧ Derives .sum (read.map Lexeme.token) e :=
  (soundAt _).sum h

end SymbolicAlgebra.Grammar
