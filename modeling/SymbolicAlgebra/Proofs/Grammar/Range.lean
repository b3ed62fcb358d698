import Mathlib.Data.Rat.Lemmas
import SymbolicAlgebra.Proofs.Expr.Parts
import SymbolicAlgebra.Proofs.Grammar.Statement

/-! What an accepted text can stand for. Its numbers have no sign, for a sign is an operation;
no part is indeterminate; and its symbols are words of the text that stand for nothing else. -/

namespace SymbolicAlgebra
open Grammar

section Words
variable {w : String} {c : Char} {cs rest : List Char} {d : Decimal}

theorem Token.ofSymbol_ne_word (cs : List Char) : (ofSymbol cs).1 ≠ .word w := by
  unfold ofSymbol
  split <;> simp

/-- A word is taken off the start of the text. -/
theorem Token.word_of_scan (taken : (scan (c :: cs)).1 = .word w) :
    isIdentifier w = true ∧ w.toList <+: c :: cs := by
  simp only [scan] at taken
  split at taken
  next letter =>
    obtain rfl := Token.word.inj taken
    rw [String.toList_ofList]
    refine ⟨?_, (List.prefix_cons_inj c).mpr (List.takeWhile_prefix _)⟩
    simp [isIdentifier, letter]
  next =>
    split at taken
    · cases taken
    · exact absurd taken (ofSymbol_ne_word _)

/-- Every word among the tokens is an identifier and stands in the text. -/
theorem Lexeme.spelled_of_word (member : .word w ∈ (list cs).map token) :
    isIdentifier w = true ∧ w.toList <:+: cs := by
  fun_induction list cs with
  | case1 => simp at member
  | case2 c cs blank ih =>
      obtain ⟨identifier, inside⟩ := ih member
      exact ⟨identifier, inside.trans (List.suffix_cons c cs).isInfix⟩
  | case3 c cs visible _ ih =>
      rcases List.mem_cons.mp member with taken | later
      · obtain ⟨identifier, first⟩ := Token.word_of_scan taken.symm
        exact ⟨identifier, first.isInfix⟩
      · obtain ⟨identifier, inside⟩ := ih later
        exact ⟨identifier, inside.trans (Token.scan_suffix c cs).isInfix⟩

end Words

theorem Decimal.nonneg_of_value? {d : Decimal} {q : ℚ} (value : d.value? = some q) : 0 ≤ q := by
  rw [value?] at value
  split at value
  · cases value
  · dsimp only at value
    split at value
    · cases value
    · split at value
      · obtain rfl := Option.some.inj value
        exact Int.cast_nonneg_iff.mpr (Int.natCast_nonneg _)
      · obtain rfl := Option.some.inj value
        exact Rat.mkRat_nonneg (Int.natCast_nonneg _) _

/-- The variable that a token names. -/
def Token.named? : Token → Option String
  | .word w =>
      match word? w with
      | some (.var name) => some name
      | _ => none
  | _ => none

theorem Token.named?_eq_some {t : Token} {name : String} (h : t.named? = some name) :
    t = .word name ∧ ¬ Reserved name := by
  unfold named? at h
  split at h
  next w =>
    split at h
    next alone =>
      obtain rfl := Option.some.inj h
      obtain ⟨rfl, free⟩ := word?_eq_var.mp alone
      exact ⟨rfl, free⟩
    next => cases h
  next => cases h

theorem Token.named?_of_called {w : String} {a e : Expr} (called : call? w a = some e) :
    (Token.word w).named? = none := by
  rw [Option.eq_none_iff_forall_ne_some]
  intro name named
  obtain ⟨same, free⟩ := named?_eq_some named
  obtain rfl := Token.word.inj same
  exact free (reserved_of_call? called)

namespace Grammar

variable {level : Level} {ts : List Token} {e : Expr}

/-- The variables of what is derived are named by the tokens, in the same order. -/
theorem Derives.names (h : Derives level ts e) : e.names = ts.filterMap Token.named? := by
  induction h with
  | number => rfl
  | word alone =>
      rcases word?_cases alone with rfl | rfl | rfl | ⟨rfl, -⟩ <;>
        simp [Expr.names, Expr.euler, Expr.one, Token.named?, alone]
  | call called _ ih =>
      -- the word of a call is reserved, so it adds no variable
      rw [List.filterMap_cons_none (Token.named?_of_called called)]
      rcases call?_cases called with rfl | ⟨f, rfl⟩ <;>
        simp [Expr.names, List.filterMap_cons, ih, Token.named?]
  | parens _ ih | neg _ ih | plus _ ih => simp [Expr.names, List.filterMap_cons, ih, Token.named?]
  | primary _ ih | power _ ih | signed _ ih | product _ ih => exact ih
  | pow _ _ iha ihb | mul _ _ iha ihb | div _ _ iha ihb | add _ _ iha ihb | sub _ _ iha ihb =>
      simp [Expr.names, List.filterMap_cons, iha, ihb, Token.named?]

/-- What tokens can stand for without an operation: a number has no sign, and nothing is
indeterminate. -/
def Leaf : Expr → Prop
  | .const q => 0 ≤ q
  | .undefined => False
  | _ => True

theorem Derives.leaf (h : Derives level ts e) : ∀ p ∈ e.parts, Leaf p := by
  induction h with
  | number value => exact List.forall_mem_singleton.mpr (Decimal.nonneg_of_value? value)
  | word alone =>
      rcases word?_cases alone with rfl | rfl | rfl | ⟨rfl, -⟩ <;>
        simp [Expr.parts, Expr.euler, Expr.one, Leaf]
  | call called _ ih =>
      rcases call?_cases called with rfl | ⟨f, rfl⟩
      · refine Expr.forall_operands trivial ih ?_
        exact List.forall_mem_singleton.mpr (Rat.mkRat_nonneg zero_le_one 2)
      · exact List.forall_mem_cons.mpr ⟨trivial, ih⟩
  | neg _ ih => exact List.forall_mem_cons.mpr ⟨trivial, ih⟩
  | parens _ ih | plus _ ih | primary _ ih | power _ ih | signed _ ih | product _ ih => exact ih
  | pow _ _ iha ihb | mul _ _ iha ihb | div _ _ iha ihb | add _ _ iha ihb | sub _ _ iha ihb =>
      exact Expr.forall_operands trivial iha ihb

/-- No derivation stands for an expression with an indeterminate part. -/
theorem Derives.determinate (h : Derives level ts e) : .undefined ∉ e.parts :=
  fun member => h.leaf .undefined member

theorem Derives.hasUndefined (h : Derives level ts e) : e.hasUndefined = false := by
  rw [← Bool.not_eq_true, Expr.hasUndefined_iff]
  exact h.determinate

end Grammar

def Clause.expressions : Clause → List Expr
  | .scalar e => [e]
  | .relation _ lhs rhs => [lhs, rhs]

/-- The sides of all relations and the other items, in their order. -/
def Statement.expressions : Statement → List Expr
  | .single c => c.expressions
  | .tuple items => items.flatMap Clause.expressions

/-- Numbers have no sign, no part is indeterminate, and every symbol is an identifier in the
text that is not reserved. -/
structure Expr.SpelledIn (text : String) (e : Expr) : Prop where
  unsigned : ∀ q, .const q ∈ e.parts → 0 ≤ q
  determinate : e.hasUndefined = false
  symbols : ∀ name ∈ e.symbols, NamesVariable name ∧ name.toList <:+: text.toList

namespace Grammar

variable {ts us : List Token} {e : Expr} {s : Statement} {c : Clause} {items : List Clause} {text : String}

/-- The expression is derived from some of the tokens. -/
def DerivedWithin (ts : List Token) (e : Expr) : Prop := ∃ us, us ⊆ ts ∧ Derives .sum us e

theorem DerivedWithin.mono (h : DerivedWithin ts e) (more : ts ⊆ us) : DerivedWithin us e := by
  obtain ⟨read, inside, derived⟩ := h
  exact ⟨read, List.Subset.trans inside more, derived⟩

theorem DerivesClause.expressions (h : DerivesClause ts c) : ∀ e ∈ c.expressions, DerivedWithin ts e := by
  cases h with
  | scalar derived => exact List.forall_mem_singleton.mpr ⟨_, List.Subset.refl _, derived⟩
  | relation left right =>
      refine List.forall_mem_cons.mpr ⟨⟨_, List.subset_append_left _ _, left⟩, ?_⟩
      refine List.forall_mem_singleton.mpr ⟨_, ?_, right⟩
      exact List.subset_append_of_subset_right _ (List.subset_cons_self _ _)

theorem DerivesItems.expressions (h : DerivesItems ts items) :
    ∀ e ∈ items.flatMap Clause.expressions, DerivedWithin ts e := by
  induction h with
  | nil | trailing => simp
  | cons first others ih =>
      rw [List.flatMap_cons]
      refine List.forall_mem_append.mpr ⟨fun e member => ?_, fun e member => ?_⟩
      · refine (first.expressions e member).mono ?_
        exact List.subset_cons_of_subset _ (List.subset_append_left _ _)
      · refine (ih e member).mono ?_
        exact List.subset_cons_of_subset _ (List.subset_append_right _ _)

theorem DerivesStatement.expressions (h : DerivesStatement ts s) :
    ∀ e ∈ s.expressions, DerivedWithin ts e := by
  cases h with
  | single first _ =>
      exact fun e member => (first.expressions e member).mono (List.subset_append_left _ _)
  | tuple first others =>
      rw [Statement.expressions, List.flatMap_cons]
      refine List.forall_mem_append.mpr ⟨fun e member => ?_, fun e member => ?_⟩
      · exact (first.expressions e member).mono (List.subset_append_left _ _)
      · exact (others.expressions e member).mono (List.subset_append_right _ _)

theorem DerivedWithin.spelledIn (h : DerivedWithin ((Lexeme.list text.toList).map Lexeme.token) e) :
    e.SpelledIn text := by
  obtain ⟨us, inside, derived⟩ := h
  refine ⟨fun q member => derived.leaf _ member, derived.hasUndefined, fun name member => ?_⟩
  rw [Expr.mem_symbols, derived.names] at member
  obtain ⟨t, read, named⟩ := List.mem_filterMap.mp member
  obtain ⟨rfl, free⟩ := Token.named?_eq_some named
  obtain ⟨identifier, spelled⟩ := Lexeme.spelled_of_word (inside read)
  exact ⟨⟨identifier, free⟩, spelled⟩

end Grammar

/-- Whatever text is accepted, as an expression or as a statement, the expressions that it
stands for have no signed numbers, no indeterminate part, and only symbols that it spells. -/
theorem accepted_text_spells_its_symbols (text : String) :
    (∀ e, Expr.parse text = .ok e → e.SpelledIn text) ∧
      ∀ s, Statement.parse text = .ok s → ∀ e ∈ s.expressions, e.SpelledIn text := by
  refine ⟨fun e read => ?_, fun s read e member => ?_⟩
  · exact Grammar.DerivedWithin.spelledIn ⟨_, List.Subset.refl _, (Expr.parse_iff text e).mp read⟩
  · exact (((Statement.parse_iff text s).mp read).expressions e member).spelledIn

/-- A tuple of an expression and a relation, with aliases, a literal and two symbols. -/
theorem tuple_spells_its_symbols :
    let text := "arctan(x_1)/2.5e-1, -oo < e*Pi"
    let first : Expr := .div (.app .atan (.var "x_1")) (.const (1/4))
    let second : Expr := .mul .euler (.var "Pi")
    Statement.parse text = .ok (.tuple [.scalar first, .relation .lt (.neg .infinity) second]) ∧
      first.SpelledIn text ∧ second.SpelledIn text := by
  intro text first second
  have read : Statement.parse text =
      .ok (.tuple [.scalar first, .relation .lt (.neg .infinity) second]) := by decide +kernel
  have spelled := (accepted_text_spells_its_symbols text).2 _ read
  exact ⟨read, spelled first (by simp [Statement.expressions, Clause.expressions]),
    spelled second (by simp [Statement.expressions, Clause.expressions])⟩

end SymbolicAlgebra
