import Mathlib.Data.List.Chain
import SymbolicAlgebra.Proofs.Grammar.Derivation
import SymbolicAlgebra.Proofs.Grammar.Words

/-! The texts of a list of tokens, with any blanks between them. The scanner takes the
longest token, so two tokens without a blank between them must not run together; the
tokens of a derivation never do. -/

namespace SymbolicAlgebra

namespace Token

/-- The characters of a token of the grammar. A numeral is a run of digits here. -/
inductive Spells : Token → List Char → Prop where
  | number {cs : List Char} (nonempty : cs ≠ []) (digits : ∀ c ∈ cs, c.isDigit = true) :
      Spells (.number ⟨cs, [], 0⟩) cs
  | word {c : Char} {cs : List Char} (first : c.isAlpha = true)
      (others : ∀ d ∈ cs, isWordChar d = true) : Spells (.word (String.ofList (c :: cs))) (c :: cs)
  | plus : Spells .plus ['+']
  | minus : Spells .minus ['-']
  | star : Spells .star ['*']
  | slash : Spells .slash ['/']
  | stars : Spells .power ['*', '*']
  | caret : Spells .power ['^']
  | openParen : Spells .openParen ['(']
  | closeParen : Spells .closeParen [')']

/-- A character that is read with the token before it. -/
def absorbs : Token → Char → Bool
  | .number _, c => c.isDigit || c = '.' || c = 'e' || c = 'E'
  | .word _, c => isWordChar c
  | .star, c => c = '*'
  | _, _ => false

/-- Tokens that may run together when no blank stands between them. -/
def joins : Token → Token → Bool
  | .number _, .number _ | .number _, .word _ | .word _, .number _ | .word _, .word _ => true
  | .star, .star | .star, .power => true
  | _, _ => false

variable {t u : Token} {cs rest : List Char}

/-- Nothing that follows is read with the token. -/
def EndsBefore (t : Token) (rest : List Char) : Prop := ∀ c ∈ rest.head?, absorbs t c = false

theorem isBlank_cases {c : Char} (h : isBlank c = true) :
    c = ' ' ∨ c = '\t' ∨ c = '\r' ∨ c = '\n' := by
  simpa [isBlank, or_assoc] using h

theorem absorbs_blank {c : Char} (h : isBlank c = true) : absorbs t c = false := by
  rcases isBlank_cases h with rfl | rfl | rfl | rfl <;> cases t <;> rfl

theorem not_isAlpha_of_isDigit {c : Char} (h : c.isDigit = true) : c.isAlpha = false := by
  rw [← Bool.not_eq_true]
  intro letter
  have upper_or_lower : (decide (c.val ≥ 'A'.val ∧ c.val ≤ 'Z'.val) ||
      decide (c.val ≥ 'a'.val) && decide (c.val ≤ 'z'.val)) = true := letter
  have range : (decide (c.val ≥ '0'.val) && decide (c.val ≤ '9'.val)) = true := h
  simp [UInt32.le_iff_toNat_le] at upper_or_lower range
  omega

theorem not_isBlank_of_isDigit {c : Char} (h : c.isDigit = true) : isBlank c = false := by
  rw [← Bool.not_eq_true]
  intro blank
  rcases isBlank_cases blank with rfl | rfl | rfl | rfl <;> simp at h

/-- Where the tokens do not join, the next one may follow at once. -/
theorem Spells.endsBefore (h : Spells u cs) (apart : joins t u = false) :
    EndsBefore t (cs ++ rest) := by
  cases h with
  | number nonempty digits =>
      obtain ⟨d, ds, rfl⟩ := List.exists_cons_of_ne_nil nonempty
      have digit := digits d List.mem_cons_self
      intro c head
      obtain rfl : d = c := by simpa using head
      cases t with
      | number | word => simp [joins] at apart
      | star => simpa [absorbs] using fun h : d = '*' => by simp [h] at digit
      | _ => rfl
  | word first others =>
      intro c head
      simp only [List.cons_append, List.head?_cons, Option.mem_def, Option.some.injEq] at head
      subst head
      cases t with
      | number | word => simp [joins] at apart
      | star => simpa [absorbs] using fun h => by simp [h] at first
      | _ => rfl
  | _ =>
      intro c head
      simp only [List.cons_append, List.head?_cons, Option.mem_def, Option.some.injEq] at head
      subst head
      cases t <;> first | rfl | simp [joins] at apart

theorem takeWhile_stop {p : Char → Bool} (inside : ∀ c ∈ cs, p c = true)
    (stop : ∀ c ∈ rest.head?, p c = false) : (cs ++ rest).takeWhile p = cs := by
  rw [List.takeWhile_append_of_pos inside]
  cases rest with
  | nil => simp
  | cons c rest => simp [stop c rfl]

theorem dropWhile_stop {p : Char → Bool} (inside : ∀ c ∈ cs, p c = true)
    (stop : ∀ c ∈ rest.head?, p c = false) : (cs ++ rest).dropWhile p = rest := by
  rw [List.dropWhile_append_of_pos inside]
  cases rest with
  | nil => rfl
  | cons c rest => simp [stop c rfl]

theorem read?_digits {d : Decimal} (nonempty : cs ≠ []) (digits : ∀ c ∈ cs, c.isDigit = true)
    (ends : EndsBefore (.number d) rest) :
    Decimal.read? (cs ++ rest) = some (⟨cs, [], 0⟩, rest) := by
  have stop : ∀ c ∈ rest.head?, c.isDigit = false := by
    intro c head
    have free := ends c head
    simp only [absorbs, Bool.or_eq_false_iff] at free
    exact free.1.1.1
  rw [Decimal.read?, takeWhile_stop digits stop, dropWhile_stop digits stop]
  cases rest with
  | nil => simp [nonempty, Decimal.readExponent]
  | cons c rest =>
      have free := ends c rfl
      simp only [absorbs, Bool.or_eq_false_iff, decide_eq_false_iff_not] at free
      obtain ⟨⟨⟨-, point⟩, small⟩, large⟩ := free
      split
      next same => simp_all
      next => simp [nonempty, Decimal.readExponent, small, large]

/-- The scanner takes a token where nothing that follows belongs to it. -/
theorem Spells.scan (h : Spells t cs) (ends : EndsBefore t rest) :
    scan (cs ++ rest) = (t, rest) := by
  cases h with
  | number nonempty digits =>
      have read := read?_digits nonempty digits ends
      obtain ⟨d, ds, rfl⟩ := List.exists_cons_of_ne_nil nonempty
      have first := not_isAlpha_of_isDigit (digits d List.mem_cons_self)
      rw [List.cons_append] at read ⊢
      simp [Token.scan, first, read]
  | word first others =>
      have stop : ∀ c ∈ rest.head?, isWordChar c = false := ends
      rw [List.cons_append, Token.scan, takeWhile_stop others stop, dropWhile_stop others stop]
      simp [first]
  | star =>
      cases rest with
      | nil => rfl
      | cons c rest =>
          have free := ends c rfl
          simp only [absorbs, decide_eq_false_iff_not] at free
          have symbol : ofSymbol ('*' :: c :: rest) = (.star, c :: rest) := by
            rw [ofSymbol]
            simp [free]
          exact symbol
  | _ => rfl

/-- A token starts with no blank. -/
theorem Spells.head (h : Spells t cs) : ∃ c ds, cs = c :: ds ∧ isBlank c = false := by
  cases h with
  | number nonempty digits =>
      obtain ⟨d, ds, rfl⟩ := List.exists_cons_of_ne_nil nonempty
      exact ⟨d, ds, rfl, not_isBlank_of_isDigit (digits d List.mem_cons_self)⟩
  | word first others =>
      refine ⟨_, _, rfl, ?_⟩
      rw [← Bool.not_eq_true]
      intro blank
      rcases isBlank_cases blank with rfl | rfl | rfl | rfl <;> simp at first
  | _ => exact ⟨_, _, rfl, rfl⟩

theorem spells_word {w : String} (h : isIdentifier w = true) :
    (Token.word w).Spells w.toList := by
  rw [isIdentifier] at h
  split at h
  next c cs letters =>
    rw [Bool.and_eq_true, List.all_eq_true] at h
    have name : w = String.ofList (c :: cs) := by rw [← letters, String.ofList_toList]
    rw [letters, name]
    exact .word h.1 h.2
  next => cases h

end Token

namespace Grammar

variable {t u : Token} {ts us : List Token} {cs ds rest blanks : List Char}
variable {e : Expr} {level : Level}

/-- The texts of a list of tokens: blanks may stand before, between and after them. -/
inductive Spelling : List Token → List Char → Prop where
  | nil {blanks : List Char} (blank : ∀ c ∈ blanks, Token.isBlank c = true) : Spelling [] blanks
  | cons {t : Token} {ts : List Token} {blanks cs rest : List Char}
      (blank : ∀ c ∈ blanks, Token.isBlank c = true) (first : t.Spells cs)
      (others : Spelling ts rest) : Spelling (t :: ts) (blanks ++ (cs ++ rest))

theorem list_blanks (blank : ∀ c ∈ blanks, Token.isBlank c = true) :
    Lexeme.list (blanks ++ cs) = Lexeme.list cs := by
  induction blanks with
  | nil => rfl
  | cons c blanks ih =>
      have remaining := ih fun d member => blank d (List.mem_cons_of_mem c member)
      rw [List.cons_append, Lexeme.list, if_pos (blank c List.mem_cons_self), remaining]

theorem list_token (h : t.Spells cs) (ends : t.EndsBefore rest) :
    Lexeme.list (cs ++ rest) = ⟨t, cs ++ rest⟩ :: Lexeme.list rest := by
  have taken := h.scan ends
  obtain ⟨c, ds, rfl, visible⟩ := h.head
  rw [List.cons_append] at taken ⊢
  rw [Lexeme.list, if_neg (by simp [visible]), taken]

theorem Spelling.endsBefore (h : Spelling ts rest)
    (apart : ∀ u ∈ ts.head?, Token.joins t u = false) : t.EndsBefore rest := by
  cases h with
  | nil blank =>
      intro c head
      exact Token.absorbs_blank (blank c (List.mem_of_mem_head? head))
  | @cons u _ blanks _ _ blank first others =>
      cases blanks with
      | nil => exact first.endsBefore (apart u rfl)
      | cons b blanks =>
          intro c head
          obtain rfl : b = c := by simpa using head
          exact Token.absorbs_blank (blank b List.mem_cons_self)

/-- The scanner finds the tokens again. -/
theorem Spelling.tokens (h : Spelling ts cs)
    (apart : ts.IsChain fun t u => Token.joins t u = false) :
    (Lexeme.list cs).map Lexeme.token = ts := by
  induction h with
  | @nil blanks blank =>
      have nothing : Lexeme.list (blanks ++ []) = Lexeme.list [] := list_blanks blank
      rw [List.append_nil] at nothing
      simp [nothing, Lexeme.list]
  | cons blank first others ih =>
      obtain ⟨next, remaining⟩ := List.isChain_cons.mp apart
      have ends := others.endsBefore next
      rw [list_blanks blank, list_token first ends, List.map_cons, ih remaining]

theorem Spelling.after_blanks (blank : ∀ c ∈ blanks, Token.isBlank c = true) (h : Spelling ts cs) :
    Spelling ts (blanks ++ cs) := by
  have more {bs : List Char} (others : ∀ c ∈ bs, Token.isBlank c = true) :
      ∀ c ∈ blanks ++ bs, Token.isBlank c = true := by
    intro c member
    rcases List.mem_append.mp member with before | after
    · exact blank c before
    · exact others c after
  cases h with
  | nil others => exact .nil (more others)
  | cons others first rest =>
      rw [← List.append_assoc]
      exact .cons (more others) first rest

theorem Spelling.append (h : Spelling ts cs) (k : Spelling us ds) :
    Spelling (ts ++ us) (cs ++ ds) := by
  induction h with
  | nil blank => exact k.after_blanks blank
  | cons blank first others ih =>
      rw [List.append_assoc, List.append_assoc]
      exact .cons blank first ih

theorem Spelling.single {t : Token} (h : t.Spells cs) : Spelling [t] cs := by
  have spelled := Spelling.cons (List.forall_mem_nil _) h (.nil (List.forall_mem_nil _))
  simpa using spelled

/-- A token that a derivation may end with. -/
def closes : Token → Bool
  | .number _ | .word _ | .closeParen => true
  | _ => false

/-- A token that stands between operands or in front of one. -/
def isOperator : Token → Bool
  | .power | .star | .slash | .plus | .minus | .openParen => true
  | _ => false

/-- Tokens that need no blanks, neither between them nor before an operator. -/
structure Compact (ts : List Token) : Prop where
  apart : ts.IsChain fun t u => Token.joins t u = false
  closed : ∀ t ∈ ts.getLast?, closes t = true

theorem joins_operator (closed : closes t = true) (op : isOperator u = true) :
    Token.joins t u = false := by
  cases u <;> simp only [isOperator, Bool.false_eq_true] at op
  all_goals cases t <;> first | rfl | simp [closes] at closed

theorem joins_opener (op : isOperator t = true) (opened : opens level u = true) :
    Token.joins t u = false := by
  cases t <;> simp only [isOperator, Bool.false_eq_true] at op
  all_goals cases u <;> first | rfl | simp [opens] at opened

/-- An operator in front of tokens that a derivation starts. -/
theorem Compact.cons (op : isOperator t = true) (h : Derives level ts e) (k : Compact ts) :
    Compact (t :: ts) := by
  obtain ⟨u, us, rfl, opened⟩ := h.head
  constructor
  · exact List.isChain_cons_cons.mpr ⟨joins_opener op opened, k.apart⟩
  · simpa using k.closed

theorem Compact.append (h : Compact ts) (op : isOperator u = true) (k : Compact (u :: us)) :
    Compact (ts ++ u :: us) := by
  constructor
  · apply h.apart.append k.apart
    intro x last y head
    obtain rfl : u = y := by simpa using head
    exact joins_operator (h.closed x last) op
  · simpa using k.closed

theorem Compact.parens (h : Derives level ts e) (k : Compact ts) :
    Compact (.openParen :: (ts ++ [.closeParen])) := by
  have opened := Compact.cons (t := .openParen) rfl h k
  constructor
  · rw [← List.cons_append]
    apply opened.apart.append (List.isChain_singleton _)
    intro x last y head
    obtain rfl : .closeParen = y := by simpa using head
    cases x <;> rfl
  · intro t last
    rw [← List.cons_append, List.getLast?_concat, Option.mem_some] at last
    exact last ▸ rfl

theorem Derives.compact (h : Derives level ts e) : Compact ts := by
  induction h with
  | number | word => exact ⟨List.isChain_singleton _, by simp [closes]⟩
  | @call w _ _ _ _ arg ih =>
      have name : Compact [.word w] := ⟨List.isChain_singleton _, by simp [closes]⟩
      exact name.append rfl (Compact.parens arg ih)
  | parens inner ih => exact Compact.parens inner ih
  | primary _ ih | power _ ih | signed _ ih | product _ ih => exact ih
  | neg h ih | plus h ih => exact Compact.cons rfl h ih
  | pow _ right iha ihb | mul _ right iha ihb | div _ right iha ihb | add _ right iha ihb
  | sub _ right iha ihb =>
      exact iha.append rfl (Compact.cons rfl right ihb)

end Grammar
end SymbolicAlgebra
