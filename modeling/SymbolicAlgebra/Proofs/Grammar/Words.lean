import SymbolicAlgebra.Grammar.Expression

/-! The words of the language: those that call a head, the other reserved ones, and the
names that are left for variables. -/

namespace SymbolicAlgebra

open Grammar

variable {w : String} {f : Fn} {a e : Expr}

/-- A letter, and then letters, digits and underscores. -/
def isIdentifier (w : String) : Bool :=
  match w.toList with
  | c :: cs => c.isAlpha && cs.all Token.isWordChar
  | [] => false

/-- The spellings of a head. -/
def Fn.words : Fn → List String
  | .sin => ["sin"] | .cos => ["cos"] | .tan => ["tan"]
  | .sec => ["sec"] | .csc => ["csc"] | .cot => ["cot"]
  | .atan => ["atan", "arctan"] | .asin => ["asin", "arcsin"] | .acos => ["acos", "arccos"]
  | .asec => ["asec", "arcsec"] | .acsc => ["acsc", "arccsc"] | .acot => ["acot", "arccot"]
  | .sinh => ["sinh"] | .cosh => ["cosh"] | .tanh => ["tanh"]
  | .asinh => ["asinh", "arcsinh"] | .acosh => ["acosh", "arccosh"]
  | .atanh => ["atanh", "arctanh"]
  | .exp => ["exp"] | .log => ["log", "ln"] | .abs => ["abs", "Abs"]

/-- The words that name no variable: those of the constants and those that are called. -/
def Reserved (w : String) : Prop := w ∈ ["pi", "e", "E", "oo", "sqrt"] ∨ ∃ f : Fn, w ∈ f.words

/-- The name is a word that stands for nothing else. -/
def NamesVariable (name : String) : Prop := isIdentifier name = true ∧ ¬ Reserved name

theorem Fn.exists_word (f : Fn) : ∃ w ∈ f.words, isIdentifier w = true := by
  cases f <;> exact ⟨_, List.mem_cons_self, rfl⟩

theorem Fn.ofWord?_eq_some : Fn.ofWord? w = some f ↔ w ∈ f.words := by
  constructor
  · intro h
    unfold Fn.ofWord? at h
    split at h
    all_goals first
      | cases h; done
      | obtain rfl := Option.some.inj h
        simp [words]
  · intro member
    cases f <;> simp only [words, List.mem_cons, List.not_mem_nil, or_false] at member
    all_goals first
      | subst member; rfl
      | rcases member with rfl | rfl <;> rfl

theorem call?_of_mem_words (member : w ∈ f.words) : call? w a = some (.app f a) := by
  have head := Fn.ofWord?_eq_some.mpr member
  have other : w ≠ "sqrt" := by
    rintro rfl
    cases head
  rw [call?, if_neg other, head]
  rfl

theorem word?_of_not_reserved (free : ¬ Reserved w) : word? w = some (.var w) := by
  rw [Reserved, not_or] at free
  obtain ⟨constants, heads⟩ := free
  simp only [List.mem_cons, List.not_mem_nil, or_false, not_or] at constants
  obtain ⟨pi, small, large, infinity, root⟩ := constants
  have uncalled : Fn.ofWord? w = none := by
    rw [Option.eq_none_iff_forall_ne_some]
    intro f head
    exact heads ⟨f, Fn.ofWord?_eq_some.mp head⟩
  simp [word?, isCallable, pi, small, large, infinity, root, uncalled]

/-- A word on its own is a constant or names a variable. -/
theorem word?_cases (alone : word? w = some e) :
    e = .pi ∨ e = .euler ∨ e = .infinity ∨ e = .var w ∧ ¬ Reserved w := by
  rw [word?] at alone
  split at alone
  next => exact .inl (Option.some.inj alone).symm
  split at alone
  next => exact .inr (.inl (Option.some.inj alone).symm)
  split at alone
  next => exact .inr (.inr (.inl (Option.some.inj alone).symm))
  split at alone
  next => cases alone
  next pi euler infinity uncalled =>
    refine .inr (.inr (.inr ⟨(Option.some.inj alone).symm, ?_⟩))
    simp only [isCallable, Bool.or_eq_true, decide_eq_true_eq, not_or] at uncalled
    rintro (constant | ⟨f, head⟩)
    · simp only [List.mem_cons, List.not_mem_nil, or_false] at constant
      rcases constant with rfl | rfl | rfl | rfl | rfl <;> simp at pi euler infinity uncalled
    · simp [Fn.ofWord?_eq_some.mpr head] at uncalled

theorem word?_eq_var {name : String} : word? w = some (.var name) ↔ w = name ∧ ¬ Reserved w := by
  constructor
  · intro alone
    rcases word?_cases alone with same | same | same | ⟨same, free⟩
    · cases same
    · cases same
    · cases same
    · exact ⟨(Expr.var.inj same).symm, free⟩
  · rintro ⟨rfl, free⟩
    exact word?_of_not_reserved free

theorem reserved_of_call? (called : call? w a = some e) : Reserved w := by
  rw [call?] at called
  split at called
  next root => exact .inl (by simp [root])
  next =>
    obtain ⟨f, head, -⟩ := Option.map_eq_some_iff.mp called
    exact .inr ⟨f, Fn.ofWord?_eq_some.mp head⟩

theorem call?_cases (called : call? w a = some e) :
    e = .pow a (.const (mkRat 1 2)) ∨ ∃ f, e = .app f a := by
  rw [call?] at called
  split at called
  next => exact .inl (Option.some.inj called).symm
  next =>
    obtain ⟨f, -, rfl⟩ := Option.map_eq_some_iff.mp called
    exact .inr ⟨f, rfl⟩

end SymbolicAlgebra
