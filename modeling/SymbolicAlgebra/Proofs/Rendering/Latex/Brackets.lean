import Mathlib.Data.List.TakeWhile
import SymbolicAlgebra.Proofs.Rendering.Latex.Reader

/-! The brackets of a LaTeX text are its braces and its commands `left` and `right`. A text
is well nested if each closes the latest one that is open. Texts that are put together stay
well nested, provided that no command at the end of one goes on in the next. -/

namespace SymbolicAlgebra.Latex

inductive Bracket where
  | brace
  | delimiter
  deriving DecidableEq, Repr

inductive Mark where
  | opens (b : Bracket)
  | closes (b : Bracket)
  deriving DecidableEq, Repr

/-- The command of these letters. -/
def commandMarks (name : List Char) : List Mark :=
  if name = ['l', 'e', 'f', 't'] then [.opens .delimiter]
  else if name = ['r', 'i', 'g', 'h', 't'] then [.closes .delimiter]
  else []

def charMarks (c : Char) : List Mark :=
  if c = '\x7b' then [.opens .brace] else if c = '\x7d' then [.closes .brace] else []

/-- The brackets of a text. A backslash makes a command of all letters behind it, or of one
other character, which is no bracket then. No letter is a bracket, so the letters of a command
may be passed over one by one. -/
def marks : List Char → List Mark
  | [] => []
  | '\\' :: c :: cs => commandMarks ((c :: cs).takeWhile Char.isAlpha) ++ marks cs
  | c :: cs => charMarks c ++ marks cs

/-- What is open after the marks, the latest first, if each closes the latest. -/
def pending : List Bracket → List Mark → Option (List Bracket)
  | stack, [] => some stack
  | stack, .opens b :: ms => pending (b :: stack) ms
  | b :: stack, .closes c :: ms => if b = c then pending stack ms else none
  | [], .closes _ :: _ => none

/-- Every bracket is closed, and each closes the latest one that is open. -/
def WellNested (text : String) : Prop := pending [] (marks text.toList) = some []

instance (text : String) : Decidable (WellNested text) := inferInstanceAs (Decidable (_ = _))

variable {text other left right : String} {cs ds : List Char} {b : Bracket}

/-! The marks of two texts. -/

/-- No command at the end of the first text goes on in the second. -/
def Apart (cs ds : List Char) : Prop :=
  cs.getLast? ≠ some '\\' ∧
    (cs.getLast?.any Char.isAlpha = false ∨ ds.head?.any Char.isAlpha = false)

theorem marks_cons {c : Char} (h : c ≠ '\\') : marks (c :: cs) = charMarks c ++ marks cs := by
  rw [marks]
  rintro d rest rfl
  exact absurd rfl h

theorem apart_nil : Apart [] ds := ⟨nofun, .inl rfl⟩

theorem Apart.tail {c : Char} (h : Apart (c :: cs) ds) : Apart cs ds := by
  cases cs with
  | nil => exact apart_nil
  | cons d cs => rwa [Apart, List.getLast?_cons_cons] at h

theorem Apart.takeWhile_isAlpha (h : Apart cs ds) (nonempty : cs ≠ []) :
    (cs ++ ds).takeWhile Char.isAlpha = cs.takeWhile Char.isAlpha := by
  rw [List.takeWhile_append]
  split
  next all =>
    have letters : cs.takeWhile Char.isAlpha = cs := (List.takeWhile_prefix _).eq_of_length all
    have letter : (cs.getLast nonempty).isAlpha = true :=
      List.takeWhile_eq_self_iff.mp letters _ (List.getLast_mem nonempty)
    have stop : ds.head?.any Char.isAlpha = false := by
      refine h.2.resolve_left fun none => ?_
      rw [List.getLast?_eq_some_getLast nonempty, Option.any_some, letter] at none
      cases none
    have nothing : ds.takeWhile Char.isAlpha = [] := by
      cases ds with
      | nil => rfl
      | cons d ds => exact List.takeWhile_cons_of_neg (Bool.not_eq_true _ ▸ stop)
    rw [nothing, List.append_nil, letters]
  next => rfl

theorem marks_append (h : Apart cs ds) : marks (cs ++ ds) = marks cs ++ marks ds := by
  fun_induction marks cs with
  | case1 => rfl
  | case2 c cs ih =>
      have command := h.tail.takeWhile_isAlpha (List.cons_ne_nil c cs)
      rw [List.cons_append] at command
      rw [List.cons_append, List.cons_append, marks, command, ih h.tail.tail, List.append_assoc]
  | case3 c cs plain ih =>
      -- a backslash with nothing behind it would be the end of the first text
      have ordinary : c ≠ '\\' := by
        rintro rfl
        cases cs with
        | nil => exact h.1 rfl
        | cons d cs => exact plain d cs rfl rfl
      rw [List.cons_append, marks_cons ordinary, ih h.tail, List.append_assoc]

theorem complete_append (h : cs.getLast? ≠ some '\\') (k : ds.getLast? ≠ some '\\') :
    (cs ++ ds).getLast? ≠ some '\\' := by
  rw [List.getLast?_append]
  cases last : ds.getLast? with
  | none => exact h
  | some c => rwa [last] at k

/-! Texts that leave open what is open before them. -/

/-- The text closes all brackets that it opens and no others, and its last command is complete. -/
structure Closed (text : String) : Prop where
  neutral (stack : List Bracket) (ms : List Mark) : pending stack (marks text.toList ++ ms) = pending stack ms
  complete : text.toList.getLast? ≠ some '\\'

theorem Closed.wellNested (h : Closed text) : WellNested text := by
  have whole := h.neutral [] []
  rwa [List.append_nil] at whole

theorem Closed.append (h : Closed text) (k : Closed other)
    (apart : text.toList.getLast?.any Char.isAlpha = false ∨ other.toList.head?.any Char.isAlpha = false) :
    Closed (text ++ other) := by
  constructor
  · intro stack ms
    rw [String.toList_append, marks_append ⟨h.complete, apart⟩, List.append_assoc, h.neutral, k.neutral]
  · rw [String.toList_append]
    exact complete_append h.complete k.complete

/-- A text without brackets. -/
theorem closed_of_marks (unmarked : marks text.toList = []) (complete : text.toList.getLast? ≠ some '\\') :
    Closed text := by
  refine ⟨fun stack ms => ?_, complete⟩
  rw [unmarked, List.nil_append]

/-- Two texts that are an opening and a closing bracket. -/
structure Encloses (left right : String) (b : Bracket) : Prop where
  opens : marks left.toList = [.opens b]
  closes : marks right.toList = [.closes b]
  complete : left.toList.getLast? ≠ some '\\' ∧ right.toList.getLast? ≠ some '\\'
  ends : left.toList.getLast?.any Char.isAlpha = false
  starts : right.toList.head?.any Char.isAlpha = false

theorem Closed.enclosed (h : Closed text) (brackets : Encloses left right b) : Closed (left ++ text ++ right) := by
  constructor
  · intro stack ms
    have behind : Apart text.toList right.toList := ⟨h.complete, .inr brackets.starts⟩
    have before : Apart left.toList (text ++ right).toList := ⟨brackets.complete.1, .inl brackets.ends⟩
    rw [String.append_assoc, String.toList_append, marks_append before, String.toList_append,
      marks_append behind, brackets.opens, brackets.closes, List.append_assoc, List.append_assoc,
      List.singleton_append, pending, h.neutral, List.singleton_append, pending, if_pos rfl]
  · rw [String.toList_append, String.toList_append]
    exact complete_append (complete_append brackets.complete.1 h.complete) brackets.complete.2

theorem encloses_braces : Encloses "\x7b" "\x7d" .brace := by
  constructor <;> decide

theorem encloses_parentheses : Encloses "\\left(" "\\right)" .delimiter := by
  constructor <;> decide

theorem encloses_argument : Encloses "\\left(" " \\right)" .delimiter := by
  constructor <;> decide

theorem encloses_bars : Encloses "\\left|" "\\right|" .delimiter := by
  constructor <;> decide

theorem Closed.braced (h : Closed text) : Closed (braced text) := h.enclosed encloses_braces

theorem Closed.parenthesized (h : Closed text) (needed : Bool) : Closed (parenthesized needed text) := by
  cases needed with
  | false => exact h
  | true => exact h.enclosed encloses_parentheses

theorem head?_braced (text : String) : (Latex.braced text).toList.head? = some '\x7b' := by
  simp [Latex.braced]

theorem getLast?_append_braced (text other : String) :
    (text ++ Latex.braced other).toList.getLast? = some '\x7d' := by
  simp [Latex.braced, List.getLast?_cons]

/-- A brace ends every command before it. -/
theorem Closed.append_braced (h : Closed text) (k : Closed other) : Closed (text ++ Latex.braced other) := by
  refine h.append k.braced (.inr ?_)
  rw [head?_braced]
  rfl

theorem Closed.applied (h : Closed text) (k : Closed other) : Closed (text ++ argument other) :=
  h.append_braced (k.enclosed encloses_argument)

theorem Closed.raised (h : Closed text) (k : Closed other) : Closed (text ++ "^" ++ Latex.braced other) := by
  have sign : Closed "^" := closed_of_marks (by decide) (by decide)
  exact (h.append sign (.inr (by decide))).append_braced k

/-- A text without brackets that does not go on with a command and starts none. -/
structure Separates (sep : String) : Prop where
  unmarked : marks sep.toList = []
  nonempty : sep.toList ≠ []
  complete : sep.toList.getLast? ≠ some '\\'
  starts : sep.toList.head?.any Char.isAlpha = false
  ends : sep.toList.getLast?.any Char.isAlpha = false

theorem Separates.closed {sep : String} (h : Separates sep) : Closed sep :=
  closed_of_marks h.unmarked h.complete

theorem Closed.joined {sep : String} (h : Closed text) (k : Closed other) (between : Separates sep) :
    Closed (text ++ sep ++ other) := by
  rw [String.append_assoc]
  refine h.append (between.closed.append k (.inl between.ends)) (.inr ?_)
  rw [String.toList_append, List.head?_append_of_ne_nil _ between.nonempty]
  exact between.starts

/-! Numbers and names. -/

theorem closed_of_plain (plain : ∀ c ∈ text.toList, c ≠ '\\' ∧ c ≠ '\x7b' ∧ c ≠ '\x7d') : Closed text := by
  apply closed_of_marks
  · generalize text.toList = cs at plain
    induction cs with
    | nil => rfl
    | cons c cs ih =>
        obtain ⟨⟨ordinary, noLeft, noRight⟩, others⟩ := List.forall_mem_cons.mp plain
        rw [marks_cons ordinary, charMarks, if_neg noLeft, if_neg noRight, List.nil_append, ih others]
  · exact fun last => (plain _ (List.mem_of_getLast? last)).1 rfl

/-- Letters, digits and underscores. -/
def IsWord (name : List Char) : Prop := ∀ c ∈ name, Token.isWordChar c = true

instance (name : List Char) : Decidable (IsWord name) := List.decidableBAll (Token.isWordChar · = true) name

theorem closed_word {name : List Char} (word : IsWord name) : Closed (String.ofList name) := by
  refine closed_of_plain fun c member => ?_
  rw [String.toList_ofList] at member
  have letter := word c member
  refine ⟨?_, ?_, ?_⟩ <;> rintro rfl <;> cases letter

theorem closed_nat (n : Nat) : Closed (toString n) := by
  refine closed_of_plain fun c member => ?_
  have digit := digits_toString n c member
  refine ⟨?_, ?_, ?_⟩ <;> rintro rfl <;> cases digit

theorem closed_int (k : Int) : Closed (toString k) := by
  cases k with
  | ofNat n => exact closed_nat n
  | negSucc n =>
      have sign : Closed "-" := closed_of_marks (by decide) (by decide)
      exact sign.append (closed_nat (n + 1)) (.inl (by decide))

theorem closed_fraction {above below : String} (h : Closed above) (k : Closed below) :
    Closed ("\\frac" ++ Latex.braced above ++ Latex.braced below) := by
  have sign : Closed "\\frac" := closed_of_marks (by decide) (by decide)
  exact (sign.append_braced h).append_braced k

theorem Closed.negated (h : Closed text) : Closed ("- " ++ text) := by
  have sign : Closed "- " := closed_of_marks (by decide) (by decide)
  exact sign.append h (.inl (by decide))

theorem closed_rational (q : Rat) (place : Nat) : Closed (rational q place) := by
  have fraction := closed_fraction (closed_nat q.num.natAbs) (closed_nat q.den)
  rw [rational]
  split
  next => exact (closed_int q.num).parenthesized _
  split
  next => exact fraction.negated.parenthesized _
  next => exact fraction.parenthesized _

theorem closed_greek : ∀ name ∈ greek, marks ("\\" ++ name).toList = [] ∧
    ("\\" ++ name).toList.getLast? ≠ some '\\' := by
  decide +kernel

theorem closed_symbolHead {name : List Char} (word : IsWord name) : Closed (symbolHead name) := by
  simp only [symbolHead]
  split
  next letter =>
    obtain ⟨unmarked, complete⟩ := closed_greek _ (List.contains_iff_mem.mp letter)
    exact closed_of_marks unmarked complete
  next => exact closed_word word

/-- Both parts of a name are made of its characters. -/
theorem IsWord.subscript {name head sub : List Char} (word : IsWord name)
    (split : subscript? name = some (head, sub)) : IsWord head ∧ IsWord sub := by
  rw [subscript?] at split
  split at split
  next found =>
    obtain ⟨rfl, rfl⟩ := Prod.mk.inj (Option.some.inj split)
    obtain ⟨wordHead, wordSub⟩ := List.forall_mem_append.mp (splitFirst?_eq found ▸ word)
    exact ⟨wordHead, (List.forall_mem_cons.mp wordSub).2⟩
  next =>
    have whole := splitDigits_append name
    split at split
    next found =>
      obtain ⟨rfl, rfl⟩ := Prod.mk.inj (Option.some.inj split)
      rw [found] at whole
      exact List.forall_mem_append.mp (whole ▸ word)
    next => cases split

theorem closed_symbolOf {name : List Char} (word : IsWord name) : Closed (symbolOf name) := by
  fun_induction symbolOf name with
  | case1 name head sub split smaller ih =>
      obtain ⟨wordHead, wordSub⟩ := word.subscript split
      have line : Closed "_" := closed_of_marks (by decide) (by decide)
      exact ((closed_symbolHead wordHead).append line (.inr (by decide))).append_braced (ih wordSub)
  | case2 name split => exact closed_symbolHead word

theorem closed_command (f : Fn) : Closed (command f) := by
  have operator {name : String} (h : Closed name) : Closed ("\\operatorname" ++ Latex.braced name) :=
    (closed_of_marks (by decide) (by decide)).append_braced h
  cases f
  all_goals first
    | exact closed_of_marks (by decide) (by decide)
    | exact operator (closed_of_marks (by decide) (by decide))

end SymbolicAlgebra.Latex
