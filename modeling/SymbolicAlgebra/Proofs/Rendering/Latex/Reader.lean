import SymbolicAlgebra.Proofs.Rendering.Shown
import SymbolicAlgebra.Rendering.Latex

/-! Texts in LaTeX, read character by character into the input syntax. Braces become
parentheses, a second group is divided by, and a blank between two factors is multiplied.
Each layout of the writer is read piece by piece as the operation that it stands for. -/

namespace SymbolicAlgebra.Latex
open Grammar

/-- What stands before a character: nothing that it could join, an operand, or an operand
and a blank. -/
inductive Reader where
  | start | operand | spaced
  deriving DecidableEq

namespace Reader

def next (r : Reader) (c : Char) : Reader :=
  if c.isDigit ∨ c ∈ ['x', ')', '\x7d'] then operand
  else if c = ' ' then if r = operand then spaced else r
  else start

/-- The characters of the input syntax that a character of a LaTeX text stands for. The
letters of commands and the blanks stand for none; a factor after a blank is multiplied. -/
def meaning (r : Reader) (c : Char) : List Char :=
  if c.isDigit then [c]
  else if c = 'x' then if r = spaced then ['*', 'x'] else ['x']
  else if c = '(' then ['(']
  else if c = ')' ∨ c = '\x7d' then [')']
  else if c = '\x7b' then if r = operand then ['/', '('] else ['(']
  else if c = '^' then ['*', '*']
  else if c = '+' then [' ', '+', ' ']
  else if c = '-' then if r = start then ['-'] else [' ', '-', ' ']
  else if c = '\\' ∧ r = spaced then ['*']
  else []

def after (r : Reader) : List Char → Reader
  | [] => r
  | c :: cs => (r.next c).after cs

def read (r : Reader) : List Char → List Char
  | [] => []
  | c :: cs => r.meaning c ++ (r.next c).read cs

variable {r : Reader} {cs : List Char}

theorem after_append (r : Reader) (cs ds : List Char) : r.after (cs ++ ds) = (r.after cs).after ds := by
  induction cs generalizing r with
  | nil => rfl
  | cons c cs ih => exact ih (r.next c)

theorem read_append (r : Reader) (cs ds : List Char) :
    r.read (cs ++ ds) = r.read cs ++ (r.after cs).read ds := by
  induction cs generalizing r with
  | nil => rfl
  | cons c cs ih =>
      rw [List.cons_append, read, ih, read, List.append_assoc]
      rfl

theorem read_digits (digits : ∀ c ∈ cs, c.isDigit = true) : r.read cs = cs := by
  induction cs generalizing r with
  | nil => rfl
  | cons c cs ih =>
      obtain ⟨first, others⟩ := List.forall_mem_cons.mp digits
      rw [read, meaning, if_pos first, ih others]
      rfl

theorem after_digits (digits : ∀ c ∈ cs, c.isDigit = true) (nonempty : cs ≠ []) :
    r.after cs = operand := by
  induction cs generalizing r with
  | nil => exact absurd rfl nonempty
  | cons c cs ih =>
      obtain ⟨first, others⟩ := List.forall_mem_cons.mp digits
      have stopped : r.next c = operand := if_pos (.inl first)
      rw [after, stopped]
      by_cases more : cs = []
      · rw [more]
        rfl
      · exact ih others more

end Reader

/-- A text is read as an image, from one state to another. -/
def Reads (r : Reader) (text image : String) (r' : Reader) : Prop :=
  r.read text.toList = image.toList ∧ r.after text.toList = r'

instance (r r' : Reader) (text image : String) : Decidable (Reads r text image r') :=
  inferInstanceAs (Decidable (_ ∧ _))

/-- The text in the input syntax that a LaTeX text stands for. -/
def inputSyntax (text : String) : String := String.ofList (Reader.start.read text.toList)

/-- The first character tells a factor from the blank before it. -/
def Opens (text : String) : Prop :=
  ∃ c cs, text.toList = c :: cs ∧ (c.isDigit = true ∨ c = 'x' ∨ c = '\\')

variable {r r' r'' : Reader} {text other image image' : String}

theorem Reads.append (h : Reads r text image r') (k : Reads r' other image' r'') :
    Reads r (text ++ other) (image ++ image') r'' := by
  obtain ⟨first, rfl⟩ := h
  obtain ⟨second, rfl⟩ := k
  constructor
  · rw [String.toList_append, Reader.read_append, first, second, String.toList_append]
  · rw [String.toList_append, Reader.after_append]

theorem Opens.append (h : Opens text) (other : String) : Opens (text ++ other) := by
  obtain ⟨c, cs, same, first⟩ := h
  exact ⟨c, cs ++ other.toList, by rw [String.toList_append, same, List.cons_append], first⟩

theorem opens_left (text : String) : Opens ("\\left(" ++ text ++ "\\right)") :=
  (Opens.append ⟨_, _, rfl, .inr (.inr rfl)⟩ text).append _

theorem opens_fraction (above below : String) : Opens ("\\frac" ++ above ++ below) :=
  (Opens.append ⟨_, _, rfl, .inr (.inr rfl)⟩ above).append below

theorem digits_toString (n : Nat) : ∀ c ∈ (toString n).toList, c.isDigit = true := by
  rw [Nat.toString_eq_repr, Nat.toList_repr]
  intro c member
  exact Nat.isDigit_of_mem_toDigits (by decide) (by decide) member

theorem toList_toString_ne_nil (n : Nat) : (toString n).toList ≠ [] := by
  rw [Nat.toString_eq_repr, Nat.toList_repr]
  exact Nat.toDigits_ne_nil

theorem reads_nat (r : Reader) (n : Nat) : Reads r (toString n) (toString n) .operand :=
  ⟨Reader.read_digits (digits_toString n), Reader.after_digits (digits_toString n) (toList_toString_ne_nil n)⟩

theorem opens_nat (n : Nat) : Opens (toString n) := by
  obtain ⟨c, cs, same⟩ := List.exists_cons_of_ne_nil (toList_toString_ne_nil n)
  exact ⟨c, cs, same, .inl (digits_toString n c (same ▸ List.mem_cons_self))⟩

/-- After a blank, a factor that does not start with a digit is multiplied. -/
theorem Reads.spaced (h : Reads .start text image r) (opens : Opens text)
    (wordy : (text.toList.head?.map Char.isDigit).getD false = false) :
    Reads .spaced text ("*" ++ image) r := by
  obtain ⟨c, cs, same, first⟩ := opens
  rw [Reads, same] at h
  rw [same] at wordy
  rw [Reads, same, String.toList_append, ← h.1, ← h.2]
  rcases first with digit | rfl | rfl
  · exact absurd (wordy.symm.trans digit) Bool.false_ne_true
  · exact ⟨rfl, rfl⟩
  · exact ⟨rfl, rfl⟩

variable {K : Type*} [Field K] [DecidableEq K] (S : Semantics K)

/-- The text is read as one of the rule that shows the value. -/
def Written (level : Level) (text : String) (x : K) : Prop :=
  ∃ image, Reads .start text image .operand ∧ Shows S level image x

variable {S} {level weak : Level} {x y z : K}

theorem Written.weaken (h : Written S level text x) (le : weak.rank ≤ level.rank) :
    Written S weak text x := by
  obtain ⟨image, reads, shows⟩ := h
  exact ⟨image, reads, shows.weaken le⟩

theorem Written.parse (h : Written S .sum text x) :
    ∃ r, Expr.parse (inputSyntax text) = .ok r ∧ S.value r = some x := by
  obtain ⟨image, ⟨read, -⟩, r, denotes, value⟩ := h
  rw [inputSyntax, read, String.ofList_toList]
  exact ⟨r, denotes.parse, value⟩

theorem Written.ne_empty (h : Written S level text x) : text.isEmpty = false := by
  obtain ⟨image, ⟨-, ended⟩, -⟩ := h
  rw [Bool.eq_false_iff]
  intro empty
  rw [String.isEmpty_iff.mp empty] at ended
  cases ended

theorem written_nat (n : Nat) : Written S .primary (toString n) (n : K) :=
  ⟨_, reads_nat .start n, shows_nat n⟩

theorem written_x (has : S.symbol "x" = x) : Written S .primary "x" x :=
  ⟨"x", by decide, .var "x", .word rfl rfl, congrArg some has⟩

theorem Written.parens (h : Written S .sum text x) :
    Written S .primary ("\\left(" ++ text ++ "\\right)") x := by
  obtain ⟨image, reads, shows⟩ := h
  have opened : Reads .start "\\left(" "(" .start := by decide
  have closed : Reads .operand "\\right)" ")" .operand := by decide
  exact ⟨_, (opened.append reads).append closed, shows.parens⟩

theorem Written.negated (h : Written S .product text x) : Written S .product ("- " ++ text) (-x) := by
  obtain ⟨image, reads, shows⟩ := h
  have sign : Reads .start "- " "-" .start := by decide
  exact ⟨_, sign.append reads, shows.negated⟩

theorem written_int (k : Int) : Written S .product (toString k) (k : K) := by
  cases k with
  | ofNat n =>
      rw [Int.ofNat_eq_natCast, Int.cast_natCast]
      exact (written_nat n).weaken (by decide)
  | negSucc n =>
      have sign : Reads .start "-" "-" .start := by decide
      have shows : Shows S .signed (toString (Int.negSucc n)) (Int.negSucc n : K) := shows_int _
      exact ⟨_, sign.append (reads_nat .start (n + 1)), shows.weaken (by decide)⟩

theorem Written.fraction (h : Written S .sum text x) (k : Written S .sum other y) (y_ne : y ≠ 0) :
    Written S .product ("\\frac" ++ braced text ++ braced other) (x / y) := by
  obtain ⟨above, readsAbove, showsAbove⟩ := h
  obtain ⟨below, readsBelow, showsBelow⟩ := k
  have name : Reads .start "\\frac" "" .start := by decide
  have first : Reads .start "\x7b" "(" .start := by decide
  have second : Reads .operand "\x7b" ("/" ++ "(") .start := by decide
  have closed : Reads .operand "\x7d" ")" .operand := by decide
  have whole := (name.append ((first.append readsAbove).append closed)).append
    ((second.append readsBelow).append closed)
  have numerator : Shows S .product ("(" ++ above ++ ")") x := showsAbove.parens.weaken (by decide)
  have quotient := numerator.div (showsBelow.parens.weaken (by decide)) y_ne
  refine ⟨_, whole, ?_⟩
  simpa only [String.append_assoc, String.empty_append] using quotient

theorem Written.pow (h : Written S .primary text x) (k : Written S .sum other y)
    (has : S.power x y = some z) : Written S .power (text ++ "^" ++ braced other) z := by
  obtain ⟨base, readsBase, showsBase⟩ := h
  obtain ⟨exponent, readsExponent, showsExponent⟩ := k
  have raised : Reads .operand "^" "**" .start := by decide
  have opened : Reads .start "\x7b" "(" .start := by decide
  have closed : Reads .operand "\x7d" ")" .operand := by decide
  have whole := (readsBase.append raised).append ((opened.append readsExponent).append closed)
  exact ⟨_, whole, showsBase.pow (showsExponent.parens.weaken (by decide)) has⟩

theorem Written.plus (h : Written S .sum text x) (k : Written S .sum other y) :
    Written S .sum (text ++ " + " ++ other) (x + y) := by
  obtain ⟨left, readsLeft, showsLeft⟩ := h
  obtain ⟨right, readsRight, showsRight⟩ := k
  have sign : Reads .operand " + " " + " .start := by decide
  exact ⟨_, (readsLeft.append sign).append readsRight, showsLeft.plus showsRight⟩

theorem Written.sub (h : Written S .sum text x) (k : Written S .product other y) :
    Written S .sum (text ++ " - " ++ other) (x - y) := by
  obtain ⟨left, readsLeft, showsLeft⟩ := h
  obtain ⟨right, readsRight, showsRight⟩ := k
  have sign : Reads .operand " - " " - " .start := by decide
  exact ⟨_, (readsLeft.append sign).append readsRight, showsLeft.sub showsRight⟩

/-- A dot or a blank stands between two factors. -/
theorem Written.juxtaposed (h : Written S .product text x) (k : Written S .product other y)
    (opens : Opens other) :
    Written S .product
      (text ++ (if (other.toList.head?.map Char.isDigit).getD false then " \\cdot " else " ") ++ other)
      (x * y) := by
  obtain ⟨left, readsLeft, showsLeft⟩ := h
  obtain ⟨right, readsRight, showsRight⟩ := k
  have product := showsLeft.times showsRight
  split
  next =>
    have dot : Reads .operand " \\cdot " "*" .start := by decide
    exact ⟨_, (readsLeft.append dot).append readsRight, product⟩
  next wordy =>
    have blank : Reads .operand " " "" .spaced := by decide
    have spaced := readsRight.spaced opens (Bool.eq_false_iff.mpr wordy)
    refine ⟨_, (readsLeft.append blank).append spaced, ?_⟩
    simpa only [String.append_empty, String.append_assoc] using product

end SymbolicAlgebra.Latex
