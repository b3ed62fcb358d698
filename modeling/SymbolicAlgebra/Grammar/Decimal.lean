/-! Decimal numerals: digits with at most one point and an optional exponent of
ten. They are read exactly, and refused when the exponent that scales the digits
is too large in either direction. -/

namespace SymbolicAlgebra

structure Decimal where
  whole : List Char
  fraction : List Char
  exponent : Int
  deriving DecidableEq, Repr

namespace Decimal

/-- The largest power of ten that scales the digits, in either direction. -/
def scaleLimit : Nat := 4096

def natOfDigits (digits : List Char) : Nat :=
  digits.foldl (fun n d => 10 * n + (d.toNat - '0'.toNat)) 0

/-- An integer that a signed word of 64 bits holds. -/
def inWord? (n : Int) : Option Int :=
  if -9223372036854775808 ≤ n ∧ n ≤ 9223372036854775807 then some n else none

/-- The power of ten that the digits without their point are scaled by. The exponent, the
number of places and their difference have to fit a word. -/
def scale? (d : Decimal) : Option Int := do
  let exponent ← inWord? d.exponent
  let places ← inWord? d.fraction.length
  inWord? (exponent - places)

def value? (d : Decimal) : Option Rat :=
  match d.scale? with
  | none => none
  | some scale =>
    let digits := natOfDigits (d.whole ++ d.fraction)
    if scale.natAbs > scaleLimit then none
    else if 0 ≤ scale then some ((digits * Nat.pow 10 scale.natAbs : Nat) : Int)
    else some (mkRat digits (Nat.pow 10 scale.natAbs))

/-- The factor that an optional sign stands for. -/
def readSign : List Char → Int × List Char
  | '+' :: rest => (1, rest)
  | '-' :: rest => (-1, rest)
  | cs => (1, cs)

/-- An exponent needs digits; a mark without them is no part of the numeral. -/
def readExponent (cs : List Char) : Int × List Char :=
  match cs with
  | [] => (0, [])
  | c :: rest =>
      if c = 'e' || c = 'E' then
        let (sign, tail) := readSign rest
        if (tail.takeWhile Char.isDigit).isEmpty then (0, cs)
        else (sign * natOfDigits (tail.takeWhile Char.isDigit), tail.dropWhile Char.isDigit)
      else (0, cs)

/-- Digits with an optional point, or a point with digits after it. -/
def read? (cs : List Char) : Option (Decimal × List Char) :=
  let whole := cs.takeWhile Char.isDigit
  match cs.dropWhile Char.isDigit with
  | '.' :: rest =>
      let fraction := rest.takeWhile Char.isDigit
      if whole.isEmpty && fraction.isEmpty then none
      else
        let (exponent, after) := readExponent (rest.dropWhile Char.isDigit)
        some (⟨whole, fraction, exponent⟩, after)
  | rest =>
      if whole.isEmpty then none
      else
        let (exponent, after) := readExponent rest
        some (⟨whole, [], exponent⟩, after)

theorem readSign_length (cs : List Char) : (readSign cs).2.length ≤ cs.length := by
  unfold readSign
  split <;> simp

theorem readExponent_length (cs : List Char) : (readExponent cs).2.length ≤ cs.length := by
  cases cs with
  | nil => exact Nat.le_refl _
  | cons c rest =>
      have := readSign_length rest
      have := ((readSign rest).2.dropWhile_suffix Char.isDigit).length_le
      simp only [readExponent]
      split
      · split <;> simp only [List.length_cons] <;> omega
      · exact Nat.le_refl _

theorem read?_length {cs after : List Char} {d : Decimal} (read : read? cs = some (d, after)) :
    after.length < cs.length := by
  have parts := congrArg List.length (List.takeWhile_append_dropWhile (p := Char.isDigit) (l := cs))
  have drop (l : List Char) := (l.dropWhile_suffix Char.isDigit).length_le
  rw [List.length_append] at parts
  simp only [read?] at read
  split at read
  next rest point =>
    rw [point, List.length_cons] at parts
    split at read
    · cases read
    · cases read
      have := readExponent_length (rest.dropWhile Char.isDigit)
      have := drop rest
      omega
  next =>
    split at read
    · cases read
    next some_digit =>
      cases read
      have := readExponent_length (cs.dropWhile Char.isDigit)
      have : 0 < (cs.takeWhile Char.isDigit).length :=
        List.length_pos_iff.mpr (by simpa using some_digit)
      omega

end Decimal
end SymbolicAlgebra
