import Mathlib.Algebra.Field.Rat
import Mathlib.Data.List.TakeWhile
import Mathlib.Data.Rat.Lemmas
import SymbolicAlgebra.Fault
import SymbolicAlgebra.Proofs.Grammar.Notation

/-! Numerals with a point and an exponent of ten. The text of one is read as exactly the
number that it writes, or refused for the power of ten that scales its digits; the bounds of
a machine word decide nothing that this limit would not decide. -/

namespace SymbolicAlgebra

open Grammar

namespace Decimal

variable {cs m p ds whole fraction : List Char} {d : Decimal} {unit x : ℤ}

def AreDigits (cs : List Char) : Prop := ∀ c ∈ cs, c.isDigit = true

/-- Digits with at most one point, and digits on one side of it at least. -/
inductive Mantissa : List Char → List Char → List Char → Prop where
  | whole {whole : List Char} (digits : AreDigits whole) (nonempty : whole ≠ []) :
      Mantissa whole whole []
  | pointed {whole fraction : List Char} (before : AreDigits whole) (behind : AreDigits fraction)
      (nonempty : whole ≠ [] ∨ fraction ≠ []) : Mantissa (whole ++ '.' :: fraction) whole fraction

inductive Sign : List Char → ℤ → Prop where
  | none : Sign [] 1
  | plus : Sign ['+'] 1
  | minus : Sign ['-'] (-1)

/-- An exponent behind its mark; where there is none it is zero. -/
inductive Exponent : List Char → ℤ → Prop where
  | none : Exponent [] 0
  | some {mark : Char} {sign digits : List Char} {unit : ℤ} (marked : mark = 'e' ∨ mark = 'E')
      (signed : Sign sign unit) (all : AreDigits digits) (nonempty : digits ≠ []) :
      Exponent (mark :: (sign ++ digits)) (unit * (Nat.ofDigitChars 10 digits 0 : ℕ))

/-- The characters are digits with a point and an exponent as in the decimal. -/
def Numeral (cs : List Char) (d : Decimal) : Prop :=
  ∃ m p, cs = m ++ p ∧ Mantissa m d.whole d.fraction ∧ Exponent p d.exponent

theorem AreDigits.head (digits : AreDigits ds) (nonempty : ds ≠ []) :
    ∃ c tail, ds = c :: tail ∧ c.isDigit = true := by
  obtain ⟨c, tail, rfl⟩ := List.exists_cons_of_ne_nil nonempty
  exact ⟨c, tail, rfl, digits c List.mem_cons_self⟩

theorem AreDigits.takeWhile (digits : AreDigits ds) : ds.takeWhile Char.isDigit = ds :=
  List.takeWhile_eq_self_iff.mpr digits

theorem AreDigits.dropWhile (digits : AreDigits ds) : ds.dropWhile Char.isDigit = [] :=
  List.dropWhile_eq_nil_iff.mpr digits

theorem readSign_of_sign (signed : Sign cs unit) (digits : AreDigits ds) (nonempty : ds ≠ []) :
    readSign (cs ++ ds) = (unit, ds) := by
  cases signed with
  | plus | minus => rfl
  | none =>
      obtain ⟨c, tail, rfl, digit⟩ := digits.head nonempty
      unfold readSign
      split
      next same => simp_all
      next same => simp_all
      next => rfl

theorem readExponent_of_exponent (h : Exponent p x) : readExponent p = (x, []) := by
  cases h with
  | none => rfl
  | some marked signed all nonempty =>
      have sign := readSign_of_sign signed all nonempty
      have mark : ∀ c, c = 'e' ∨ c = 'E' → (decide (c = 'e') || decide (c = 'E')) = true := by simp
      simp only [readExponent, mark _ marked, if_true, sign, all.takeWhile, all.dropWhile,
        List.isEmpty_iff, nonempty, if_false]
      rfl

/-- An exponent continues neither digits nor a point. -/
theorem Exponent.head (h : Exponent p x) : ∀ c ∈ p.head?, c.isDigit = false ∧ c ≠ '.' := by
  cases h with
  | none => simp
  | some marked => rcases marked with rfl | rfl <;> simp

theorem read?_of_numeral (h : Numeral cs d) : read? cs = some (d, []) := by
  obtain ⟨m, p, rfl, mantissa, exponent⟩ := h
  obtain ⟨whole, fraction, x⟩ := d
  have ends : ∀ c ∈ p.head?, c.isDigit = false := fun c first => (exponent.head c first).1
  have power := readExponent_of_exponent exponent
  cases mantissa with
  | whole digits nonempty =>
      have before := Token.takeWhile_stop digits ends
      have behind := Token.dropWhile_stop digits ends
      rw [read?, before, behind]
      split
      next rest => exact absurd rfl (exponent.head '.' rfl).2
      next => simp_all
  | pointed before behind nonempty =>
      have point : ∀ c ∈ ('.' :: (fraction ++ p)).head?, c.isDigit = false := by simp
      have places := Token.takeWhile_stop behind ends
      have others := Token.dropWhile_stop behind ends
      rw [List.append_assoc, List.cons_append, read?, Token.takeWhile_stop before point,
        Token.dropWhile_stop before point]
      have filled : (whole.isEmpty && fraction.isEmpty) = false := by
        rcases nonempty with some | some <;> simp [some]
      simp only [places, others, power, filled, Bool.false_eq_true, if_false]

theorem Numeral.head (h : Numeral cs d) :
    ∃ c tail, cs = c :: tail ∧ c.isAlpha = false ∧ Token.isBlank c = false := by
  obtain ⟨m, p, rfl, mantissa, -⟩ := h
  obtain ⟨whole, fraction, x⟩ := d
  have digit {c : Char} (h : c.isDigit = true) : c.isAlpha = false ∧ Token.isBlank c = false :=
    ⟨Token.not_isAlpha_of_isDigit h, Token.not_isBlank_of_isDigit h⟩
  cases mantissa with
  | whole digits nonempty =>
      obtain ⟨c, tail, same, first⟩ := digits.head nonempty
      exact ⟨c, tail ++ p, by rw [same, List.cons_append], digit first⟩
  | pointed before _ _ =>
      cases whole with
      | nil => exact ⟨'.', _, rfl, rfl, rfl⟩
      | cons c tail => exact ⟨c, _, rfl, digit (before c List.mem_cons_self)⟩

/-! The power of ten in a machine word. -/

theorem scale_of_scale? {scale : ℤ} (h : d.scale? = some scale) :
    scale = d.exponent - d.fraction.length := by
  simp only [scale?, inWord?, Option.bind_eq_bind, Option.bind_eq_some_iff, Option.ite_none_right_eq_some,
    Option.some.injEq] at h
  obtain ⟨_, ⟨-, rfl⟩, _, ⟨-, rfl⟩, -, rfl⟩ := h
  rfl

/-- No word overflows where the numeral is within the limit. -/
theorem scale?_of_within (short : d.fraction.length < 2 ^ 62)
    (within : (d.exponent - d.fraction.length).natAbs ≤ 4096) :
    d.scale? = some (d.exponent - d.fraction.length) := by
  have word {n : ℤ} (fits : -2 ^ 63 ≤ n ∧ n < 2 ^ 63) : inWord? n = some n := if_pos (by omega)
  rw [scale?, word (by omega), word (by omega)]
  exact word (by omega)

/-- The bounds of the words are never what decides. -/
theorem value?_eq (short : d.fraction.length < 2 ^ 62) :
    d.value? = if (d.exponent - d.fraction.length).natAbs ≤ 4096 then
      some ((Nat.ofDigitChars 10 (d.whole ++ d.fraction) 0 : ℕ) *
        (10 : ℚ) ^ (d.exponent - d.fraction.length))
    else none := by
  have digits : natOfDigits (d.whole ++ d.fraction) = Nat.ofDigitChars 10 (d.whole ++ d.fraction) 0 := rfl
  split
  next within =>
    rw [value?, scale?_of_within short within, digits]
    generalize d.exponent - d.fraction.length = scale at within
    have bounded : ¬ scale.natAbs > scaleLimit := by
      rw [scaleLimit]
      omega
    simp only [if_neg bounded]
    split
    next nonneg =>
      obtain ⟨n, rfl⟩ := Int.eq_ofNat_of_zero_le nonneg
      simp [zpow_natCast]
    next negative =>
      obtain ⟨n, rfl⟩ : ∃ n : ℕ, scale = -n := ⟨scale.natAbs, by omega⟩
      simp [Rat.mkRat_eq_div, zpow_neg, div_eq_mul_inv]
  next beyond =>
    -- refused for a word or for the limit, with one and the same result
    rw [value?]
    split
    next => rfl
    next scale found =>
      have same := scale_of_scale? found
      exact if_pos (by rw [scaleLimit]; omega)

end Decimal

namespace Grammar

variable {d : Decimal} {start : List Char}

theorem expression_of_number {q : ℚ} (value : d.value? = some q) :
    expression [⟨.number d, start⟩] = .ok (.const q, []) :=
  expression_reads (Derives.number value).toSum

theorem expression_of_refused_number (refused : d.value? = none) :
    expression [⟨.number d, start⟩] = .error ⟨start, some .exponentOutOfRange⟩ := by
  simp [expression, sum, product, signed, power, primary, refused]

end Grammar

theorem Text.length_le_width (cs : List Char) : cs.length ≤ width cs := by
  induction cs with
  | nil => exact Nat.le_refl _
  | cons c cs ih =>
      have := c.utf8Size_pos
      rw [List.length_cons, width]
      omega

namespace Decimal

variable {cs m whole fraction : List Char} {d : Decimal}

theorem Numeral.list (numeral : Numeral cs d) : Lexeme.list cs = [⟨.number d, cs⟩] := by
  have read := read?_of_numeral numeral
  obtain ⟨c, tail, rfl, no_letter, visible⟩ := numeral.head
  simp [Lexeme.list, visible, Token.scan, no_letter, read]

theorem Mantissa.places_le (h : Mantissa m whole fraction) : fraction.length ≤ m.length := by
  cases h with
  | whole => exact Nat.zero_le _
  | pointed =>
      rw [List.length_append, List.length_cons]
      omega

theorem Numeral.places_le (numeral : Numeral cs d) : d.fraction.length ≤ Text.width cs := by
  obtain ⟨m, p, rfl, mantissa, -⟩ := numeral
  have length := Text.length_le_width (m ++ p)
  rw [List.length_append] at length
  have := mantissa.places_le
  omega

end Decimal

open Decimal

/-- The text of a numeral is read as the digits without their point, scaled by a power of ten;
it is refused, at its start, exactly if that power is beyond the limit. -/
theorem numeral_is_exact_or_refused {text : String} {d : Decimal} (numeral : Numeral text.toList d)
    (short : Text.width text.toList < 2 ^ 62) :
    let digits : ℕ := Nat.ofDigitChars 10 (d.whole ++ d.fraction) 0
    let scale : ℤ := d.exponent - d.fraction.length
    (Expr.ofText text = .ok (.const (digits * 10 ^ scale)) ↔ scale.natAbs ≤ 4096) ∧
      (4096 < scale.natAbs → ∃ fault, Expr.ofText text = .error (.unreadable text fault) ∧
        fault.detail text = "exponent out of range at position 0") := by
  intro digits scale
  have value := value?_eq (numeral.places_le.trans_lt short)
  by_cases within : scale.natAbs ≤ 4096
  · have read : Expr.ofText text = .ok (.const (digits * 10 ^ scale)) := by
      rw [Expr.ofText, Expr.parse, numeral.list, expression_of_number (value.trans (if_pos within))]
      rfl
    exact ⟨iff_of_true read within, fun beyond => absurd within (Nat.not_le.mpr beyond)⟩
  · have refused : Expr.ofText text =
        .error (.unreadable text ⟨text.toList, some .exponentOutOfRange⟩) := by
      rw [Expr.ofText, Expr.parse, numeral.list, expression_of_refused_number (value.trans (if_neg within))]
      rfl
    refine ⟨iff_of_false (by simp [refused]) within, fun _ => ⟨_, refused, ?_⟩⟩
    rw [SyntaxFault.detail, Nat.sub_self]
    rfl

/-- The exponent is the sixty-fifth power of two, and the digits have two places. -/
theorem long_exponent_is_refused :
    let text := ".05E+36893488147419103232"
    let d : Decimal := ⟨[], ['0', '5'], 36893488147419103232⟩
    Numeral text.toList d ∧ Text.width text.toList < 2 ^ 62 ∧
      ∃ fault, Expr.ofText text = .error (.unreadable text fault) ∧
        fault.detail text = "exponent out of range at position 0" := by
  intro text d
  let places := ['0', '5']
  let power := "36893488147419103232".toList
  have digits : AreDigits places ∧ AreDigits power := by
    simp [places, power, AreDigits]
  have mantissa : Mantissa ([] ++ '.' :: places) [] places :=
    .pointed (by simp [AreDigits]) digits.1 (.inr (by simp [places]))
  have value : Nat.ofDigitChars 10 power 0 = 36893488147419103232 := by decide +kernel
  have exponent := Exponent.some (.inr rfl) .plus digits.2 (by simp [power])
  rw [value, one_mul] at exponent
  have numeral : Numeral text.toList d := ⟨_, _, by simp [text, places, power], mantissa, exponent⟩
  have short : Text.width text.toList < 2 ^ 62 := by decide +kernel
  exact ⟨numeral, short, (numeral_is_exact_or_refused numeral short).2 (by decide +kernel)⟩

example : Expr.parse "1.25e-1" = .ok (.const (1/8)) := by decide +kernel

end SymbolicAlgebra
