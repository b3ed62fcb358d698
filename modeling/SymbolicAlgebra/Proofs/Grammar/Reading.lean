import SymbolicAlgebra.Proofs.Grammar.Derivation

/-! The descent reads every derivation. A rule that loops is shown to reach its loop
with the derived expression in hand and enough depth left; one that does not loop
returns the expression. What follows must not continue the rule. -/

namespace SymbolicAlgebra.Grammar

variable {level : Level} {ts us : List Token} {ls rest : List Lexeme} {a b e : Expr} {depth : Nat}

/-- The remaining tokens start with none of the given ones. -/
def StopsAt (ts : List Token) (rest : List Lexeme) : Prop := ∀ l ∈ rest.head?, l.token ∉ ts

theorem stopsAt_nil : StopsAt ts [] := by simp [StopsAt]

theorem stopsAt_cons {l : Lexeme} : StopsAt ts (l :: rest) ↔ l.token ∉ ts := by simp [StopsAt]

theorem StopsAt.mono (h : StopsAt ts rest) (fewer : us ⊆ ts) : StopsAt us rest :=
  fun l member inside => h l member (fewer inside)

theorem sumRest_stop (stops : StopsAt [.plus, .minus] rest) :
    sumRest (depth + 1) a rest = .ok (a, rest) := by
  cases rest with
  | nil => rfl
  | cons l tail =>
      obtain ⟨t, start⟩ := l
      rw [stopsAt_cons] at stops
      cases t <;> first | rfl | simp at stops

theorem productRest_stop (stops : StopsAt [.star, .slash] rest) :
    productRest (depth + 1) a rest = .ok (a, rest) := by
  cases rest with
  | nil => rfl
  | cons l tail =>
      obtain ⟨t, start⟩ := l
      rw [stopsAt_cons] at stops
      cases t <;> first | rfl | simp at stops

/-- The tokens with which a rule would go on. -/
def continuations : Level → List Token
  | .primary => [.openParen]
  | .power | .signed | .product => [.openParen, .power]
  | .sum => [.openParen, .power, .star, .slash]

/-- What reading at a level comes to. A rule calls the next one with one level of depth
less, so a stronger rule needs less; a loop gives up one for each turn. -/
def Reads (ls : List Lexeme) (e : Expr) : Level → Prop
  | .primary => ∀ rest depth, StopsAt (continuations .primary) rest → 8 * ls.length ≤ depth + 7 →
      primary depth (ls ++ rest) = .ok (e, rest)
  | .power => ∀ rest depth, StopsAt (continuations .power) rest → 8 * ls.length ≤ depth + 6 →
      power depth (ls ++ rest) = .ok (e, rest)
  | .signed => ∀ rest depth, StopsAt (continuations .signed) rest → 8 * ls.length ≤ depth + 5 →
      signed depth (ls ++ rest) = .ok (e, rest)
  | .product => ∀ rest depth, StopsAt (continuations .product) rest → 8 * ls.length ≤ depth + 4 →
      ∃ d, depth ≤ d + ls.length ∧ product depth (ls ++ rest) = productRest d e rest
  | .sum => ∀ rest depth, StopsAt (continuations .sum) rest → 8 * ls.length ≤ depth + 3 →
      ∃ d, depth ≤ d + ls.length ∧ sum depth (ls ++ rest) = sumRest d e rest

theorem reads_number {d : Decimal} {q : Rat} (value : d.value? = some q) (start : List Char) :
    Reads [⟨.number d, start⟩] (.const q) .primary := by
  intro rest depth _ enough
  obtain ⟨depth, rfl⟩ : ∃ n, depth = n + 1 := ⟨depth - 1, by simp at enough; omega⟩
  simp [primary, value]

theorem reads_word {w : String} (alone : word? w = some e) (start : List Char) :
    Reads [⟨.word w, start⟩] e .primary := by
  intro rest depth stops enough
  obtain ⟨depth, rfl⟩ : ∃ n, depth = n + 1 := ⟨depth - 1, by simp at enough; omega⟩
  cases rest with
  | nil => simp [primary, alone]
  | cons l tail =>
      obtain ⟨t, begin⟩ := l
      rw [stopsAt_cons] at stops
      cases t <;> first | (simp [continuations] at stops; done) | simp [primary, alone]

/-- A sum in front of a closing parenthesis. -/
theorem enclosed_reads (h : Reads ls a .sum) (nonempty : 0 < ls.length)
    (enough : 8 * ls.length ≤ depth + 2) (start : List Char) :
    enclosed depth (ls ++ ⟨.closeParen, start⟩ :: rest) = .ok (a, rest) := by
  obtain ⟨depth, rfl⟩ : ∃ n, depth = n + 1 := ⟨depth - 1, by omega⟩
  have stops (ts : List Token) (other : .closeParen ∉ ts) :
      StopsAt ts (⟨.closeParen, start⟩ :: rest) := stopsAt_cons.mpr other
  obtain ⟨d, remaining, reads⟩ := h _ depth (stops _ (by simp [continuations])) (by omega)
  obtain ⟨d, rfl⟩ : ∃ n, d = n + 1 := ⟨d - 1, by omega⟩
  rw [sumRest_stop (stops _ (by simp))] at reads
  rw [enclosed, reads]

theorem reads_parens (h : Reads ls e .sum) (nonempty : 0 < ls.length) (start finish : List Char) :
    Reads (⟨.openParen, start⟩ :: (ls ++ [⟨.closeParen, finish⟩])) e .primary := by
  intro rest depth _ enough
  simp only [List.length_cons, List.length_append, List.length_nil] at enough
  obtain ⟨depth, rfl⟩ : ∃ n, depth = n + 1 := ⟨depth - 1, by omega⟩
  have inner : enclosed depth (ls ++ ⟨.closeParen, finish⟩ :: rest) = .ok (e, rest) :=
    enclosed_reads h nonempty (by omega) finish
  simpa [primary] using inner

theorem reads_call {w : String} (called : call? w a = some e) (h : Reads ls a .sum)
    (nonempty : 0 < ls.length) (name start finish : List Char) :
    Reads (⟨.word w, name⟩ :: ⟨.openParen, start⟩ :: (ls ++ [⟨.closeParen, finish⟩])) e .primary := by
  intro rest depth _ enough
  simp only [List.length_cons, List.length_append, List.length_nil] at enough
  obtain ⟨depth, rfl⟩ : ∃ n, depth = n + 1 := ⟨depth - 1, by omega⟩
  have inner : enclosed depth (ls ++ ⟨.closeParen, finish⟩ :: rest) = .ok (a, rest) :=
    enclosed_reads h nonempty (by omega) finish
  simp [primary, inner, called]

theorem reads_primary (h : Reads ls e .primary) (nonempty : 0 < ls.length) :
    Reads ls e .power := by
  intro rest depth stops enough
  obtain ⟨depth, rfl⟩ : ∃ n, depth = n + 1 := ⟨depth - 1, by omega⟩
  have base := h rest depth (stops.mono (by simp [continuations])) (by omega)
  rw [power, base]
  cases rest with
  | nil => rfl
  | cons l tail =>
      obtain ⟨t, start⟩ := l
      rw [stopsAt_cons] at stops
      cases t <;> first | rfl | simp [continuations] at stops

theorem reads_pow {rs : List Lexeme} (h : Reads ls a .primary) (k : Reads rs b .signed)
    (nonempty : 0 < ls.length) (start : List Char) :
    Reads (ls ++ ⟨.power, start⟩ :: rs) (.pow a b) .power := by
  intro rest depth stops enough
  simp only [List.length_append, List.length_cons] at enough
  obtain ⟨depth, rfl⟩ : ∃ n, depth = n + 1 := ⟨depth - 1, by omega⟩
  have base := h (⟨.power, start⟩ :: (rs ++ rest)) depth
    (stopsAt_cons.mpr (by simp [continuations])) (by omega)
  have exponent := k rest depth stops (by omega)
  rw [List.append_assoc, List.cons_append, power, base]
  simp [exponent, named]

theorem reads_power (h : Reads ls e .power) {l : Lexeme} {tail : List Lexeme} (first : ls = l :: tail)
    (opened : opens .power l.token = true) : Reads ls e .signed := by
  intro rest depth stops enough
  subst first
  simp only [List.length_cons] at enough
  obtain ⟨depth, rfl⟩ : ∃ n, depth = n + 1 := ⟨depth - 1, by omega⟩
  have unsigned := h rest depth stops (by simp only [List.length_cons]; omega)
  obtain ⟨t, start⟩ := l
  rw [← unsigned, List.cons_append]
  cases t <;> first | rfl | simp [opens] at opened

theorem reads_neg (h : Reads ls a .signed) (start : List Char) :
    Reads (⟨.minus, start⟩ :: ls) (.neg a) .signed := by
  intro rest depth stops enough
  simp only [List.length_cons] at enough
  obtain ⟨depth, rfl⟩ : ∃ n, depth = n + 1 := ⟨depth - 1, by omega⟩
  have inner := h rest depth stops (by omega)
  simp [signed, inner]

theorem reads_plus (h : Reads ls a .signed) (start : List Char) :
    Reads (⟨.plus, start⟩ :: ls) a .signed := by
  intro rest depth stops enough
  simp only [List.length_cons] at enough
  obtain ⟨depth, rfl⟩ : ∃ n, depth = n + 1 := ⟨depth - 1, by omega⟩
  have inner := h rest depth stops (by omega)
  simpa [signed] using inner

theorem reads_signed (h : Reads ls e .signed) (nonempty : 0 < ls.length) :
    Reads ls e .product := by
  intro rest depth stops enough
  obtain ⟨depth, rfl⟩ : ∃ n, depth = n + 1 := ⟨depth - 1, by omega⟩
  have factor := h rest depth stops (by omega)
  exact ⟨depth, by omega, by simp only [product, factor]⟩

theorem reads_product (h : Reads ls e .product) (nonempty : 0 < ls.length) :
    Reads ls e .sum := by
  intro rest depth stops enough
  obtain ⟨depth, rfl⟩ : ∃ n, depth = n + 1 := ⟨depth - 1, by omega⟩
  obtain ⟨d, remaining, reads⟩ :=
    h rest depth (stops.mono (by simp [continuations])) (by omega)
  obtain ⟨d, rfl⟩ : ∃ n, d = n + 1 := ⟨d - 1, by omega⟩
  rw [productRest_stop (stops.mono (by simp [continuations]))] at reads
  exact ⟨depth, by omega, by simp only [sum, reads]⟩

/-- One more turn of the loop over factors. -/
theorem reads_factor {rs : List Lexeme} {op : Token} {join : Expr → Expr → Expr}
    (h : Reads ls a .product) (k : Reads rs b .signed) (apart : op ∉ continuations .product)
    (turn : ∀ depth start rs rest, signed depth rs = .ok (b, rest) →
      productRest (depth + 1) a (⟨op, start⟩ :: rs) = productRest depth (join a b) rest)
    (start : List Char) : Reads (ls ++ ⟨op, start⟩ :: rs) (join a b) .product := by
  intro rest depth stops enough
  simp only [List.length_append, List.length_cons] at enough
  obtain ⟨d, remaining, reads⟩ :=
    h (⟨op, start⟩ :: (rs ++ rest)) depth (stopsAt_cons.mpr apart) (by omega)
  obtain ⟨d, rfl⟩ : ∃ n, d = n + 1 := ⟨d - 1, by omega⟩
  have factor := k rest d stops (by omega)
  refine ⟨d, ?_, ?_⟩
  · simp only [List.length_append, List.length_cons]
    omega
  · rw [List.append_assoc, List.cons_append, reads, turn d start _ _ factor]

/-- One more turn of the loop over terms. -/
theorem reads_term {rs : List Lexeme} {op : Token} {join : Expr → Expr → Expr}
    (h : Reads ls a .sum) (k : Reads rs b .product) (apart : op ∉ continuations .sum)
    (turn : ∀ depth start rs rest, product depth rs = .ok (b, rest) →
      sumRest (depth + 1) a (⟨op, start⟩ :: rs) = sumRest depth (join a b) rest)
    (start : List Char) : Reads (ls ++ ⟨op, start⟩ :: rs) (join a b) .sum := by
  intro rest depth stops enough
  simp only [List.length_append, List.length_cons] at enough
  obtain ⟨d, remaining, reads⟩ :=
    h (⟨op, start⟩ :: (rs ++ rest)) depth (stopsAt_cons.mpr apart) (by omega)
  obtain ⟨d, rfl⟩ : ∃ n, d = n + 1 := ⟨d - 1, by omega⟩
  obtain ⟨d', left, factors⟩ := k rest d (stops.mono (by simp [continuations])) (by omega)
  obtain ⟨d', rfl⟩ : ∃ n, d' = n + 1 := ⟨d' - 1, by omega⟩
  rw [productRest_stop (stops.mono (by simp [continuations]))] at factors
  refine ⟨d, ?_, ?_⟩
  · simp only [List.length_append, List.length_cons]
    omega
  · rw [List.append_assoc, List.cons_append, reads, turn d start _ _ factors]

theorem Derives.length_pos (h : Derives level ts e) (same : ls.map Lexeme.token = ts) :
    0 < ls.length := by
  obtain ⟨t, us, rfl, -⟩ := h.head
  have lengths := congrArg List.length same
  simp only [List.length_map, List.length_cons] at lengths
  omega

theorem exists_of_map_cons {t : Token} (h : ls.map Lexeme.token = t :: us) :
    ∃ start right, ls = ⟨t, start⟩ :: right ∧ right.map Lexeme.token = us := by
  obtain ⟨l, right, rfl, rfl, after⟩ := List.map_eq_cons_iff.mp h
  exact ⟨l.start, right, rfl, after⟩

theorem exists_of_map_append {t : Token} (h : ls.map Lexeme.token = ts ++ t :: us) :
    ∃ left start right, ls = left ++ ⟨t, start⟩ :: right ∧ left.map Lexeme.token = ts ∧
      right.map Lexeme.token = us := by
  obtain ⟨left, others, rfl, before, rest⟩ := List.map_eq_append_iff.mp h
  obtain ⟨start, right, rfl, after⟩ := exists_of_map_cons rest
  exact ⟨left, start, right, rfl, before, after⟩

theorem exists_of_map_parens (h : ls.map Lexeme.token = .openParen :: (ts ++ [.closeParen])) :
    ∃ start inner finish, ls = ⟨.openParen, start⟩ :: (inner ++ [⟨.closeParen, finish⟩]) ∧
      inner.map Lexeme.token = ts := by
  obtain ⟨start, others, rfl, rest⟩ := exists_of_map_cons h
  obtain ⟨inner, finish, right, rfl, before, after⟩ := exists_of_map_append rest
  obtain rfl := List.map_eq_nil_iff.mp after
  exact ⟨start, inner, finish, rfl, before⟩

/-- The lexemes of a derivation are read as its expression, at its level. -/
theorem Derives.reads (h : Derives level ts e) :
    ∀ ls : List Lexeme, ls.map Lexeme.token = ts → Reads ls e level := by
  induction h with
  | number value =>
      intro ls same
      obtain ⟨start, right, rfl, after⟩ := exists_of_map_cons same
      obtain rfl := List.map_eq_nil_iff.mp after
      exact reads_number value start
  | word alone =>
      intro ls same
      obtain ⟨start, right, rfl, after⟩ := exists_of_map_cons same
      obtain rfl := List.map_eq_nil_iff.mp after
      exact reads_word alone start
  | call called arg ih =>
      intro ls same
      obtain ⟨name, others, rfl, rest⟩ := exists_of_map_cons same
      obtain ⟨start, inner, finish, rfl, before⟩ := exists_of_map_parens rest
      exact reads_call called (ih inner before) (arg.length_pos before) name start finish
  | parens h ih =>
      intro ls same
      obtain ⟨start, inner, finish, rfl, before⟩ := exists_of_map_parens same
      exact reads_parens (ih inner before) (h.length_pos before) start finish
  | primary h ih =>
      intro ls same
      exact reads_primary (ih ls same) (h.length_pos same)
  | pow base exponent iha ihb =>
      intro ls same
      obtain ⟨left, start, right, rfl, before, after⟩ := exists_of_map_append same
      exact reads_pow (iha left before) (ihb right after) (base.length_pos before) start
  | power h ih =>
      intro ls same
      obtain ⟨t, us, rfl, opened⟩ := h.head
      obtain ⟨start, tail, rfl, -⟩ := exists_of_map_cons same
      exact reads_power (ih _ same) rfl opened
  | neg h ih =>
      intro ls same
      obtain ⟨start, tail, rfl, after⟩ := exists_of_map_cons same
      exact reads_neg (ih tail after) start
  | plus h ih =>
      intro ls same
      obtain ⟨start, tail, rfl, after⟩ := exists_of_map_cons same
      exact reads_plus (ih tail after) start
  | signed h ih =>
      intro ls same
      exact reads_signed (ih ls same) (h.length_pos same)
  | mul left right iha ihb =>
      intro ls same
      obtain ⟨l, start, r, rfl, before, after⟩ := exists_of_map_append same
      refine reads_factor (iha l before) (ihb r after) (by simp [continuations]) ?_ start
      intro depth start rs rest factor
      simp [productRest, named, factor]
  | div left right iha ihb =>
      intro ls same
      obtain ⟨l, start, r, rfl, before, after⟩ := exists_of_map_append same
      refine reads_factor (iha l before) (ihb r after) (by simp [continuations]) ?_ start
      intro depth start rs rest factor
      simp [productRest, named, factor]
  | product h ih =>
      intro ls same
      exact reads_product (ih ls same) (h.length_pos same)
  | add left right iha ihb =>
      intro ls same
      obtain ⟨l, start, r, rfl, before, after⟩ := exists_of_map_append same
      refine reads_term (iha l before) (ihb r after) (by simp [continuations]) ?_ start
      intro depth start rs rest term
      simp [sumRest, named, term]
  | sub left right iha ihb =>
      intro ls same
      obtain ⟨l, start, r, rfl, before, after⟩ := exists_of_map_append same
      refine reads_term (iha l before) (ihb r after) (by simp [continuations]) ?_ start
      intro depth start rs rest term
      simp [sumRest, named, term]

/-- A sum is read from the tokens that derive it, whatever follows, unless it continues it. -/
theorem expression_reads_before (h : Derives .sum (ls.map Lexeme.token) e)
    (stops : StopsAt [.openParen, .power, .star, .slash, .plus, .minus] rest) :
    expression (ls ++ rest) = .ok (e, rest) := by
  obtain ⟨d, remaining, reads⟩ := h.reads ls rfl rest (8 * (ls ++ rest).length + 8)
    (stops.mono (by simp [continuations])) (by simp only [List.length_append]; omega)
  have positive := h.length_pos rfl
  simp only [List.length_append] at remaining
  obtain ⟨d, rfl⟩ : ∃ n, d = n + 1 := ⟨d - 1, by omega⟩
  rwa [sumRest_stop (stops.mono (by simp))] at reads

/-- A derivation of a sum is read completely from its tokens. -/
theorem expression_reads (h : Derives .sum (ls.map Lexeme.token) e) :
    expression ls = .ok (e, []) := by
  simpa using expression_reads_before h stopsAt_nil

/-- The grammar is unambiguous. -/
theorem Derives.unique (h : Derives .sum ts a) (k : Derives .sum ts b) : a = b := by
  have tokens : (ts.map fun t => (⟨t, []⟩ : Lexeme)).map Lexeme.token = ts := by
    rw [List.map_map]
    exact List.map_id ts
  rw [← tokens] at h k
  have same := (expression_reads h).symm.trans (expression_reads k)
  exact congrArg Prod.fst (Except.ok.inj same)

end SymbolicAlgebra.Grammar
