import SymbolicAlgebra.Arithmetic.Sum
import SymbolicAlgebra.Number

/-! Expressions as LaTeX. Products are juxtaposed, a rational coefficient and the
negative powers make a fraction, a sum lists its terms of higher degree first,
and the arguments of heads stand in growing parentheses. Terms and factors are
taken apart before they are written, so what is written next is not always a
subexpression; the layout of one level is a function of the writer of the next,
and the depth is bounded by the size. -/

namespace SymbolicAlgebra.Latex

def braced (text : String) : String := "\x7b" ++ text ++ "\x7d"

def parenthesized (needed : Bool) (text : String) : String :=
  if needed then "\\left(" ++ text ++ "\\right)" else text

/-! Binding strengths of the places in which an expression can stand. -/

def inSum : Nat := 1

def inProduct : Nat := 2

def inPower : Nat := 3

def asAtom : Nat := 4

def greek : List String :=
  ["alpha", "beta", "gamma", "delta", "epsilon", "zeta", "eta", "theta", "iota", "kappa",
    "lambda", "mu", "nu", "xi", "rho", "sigma", "tau", "upsilon", "phi", "chi", "psi", "omega",
    "Gamma", "Delta", "Theta", "Lambda", "Xi", "Pi", "Sigma", "Upsilon", "Phi", "Psi", "Omega"]

/-- The parts before and after the first occurrence of a character. -/
def splitFirst? (c : Char) : List Char → Option (List Char × List Char)
  | [] => none
  | d :: rest =>
      if d = c then some ([], rest)
      else (splitFirst? c rest).map fun (before, after) => (d :: before, after)

/-- A name without its final digits, and those digits. -/
def splitDigits (name : List Char) : List Char × List Char :=
  ((name.reverse.dropWhile Char.isDigit).reverse, (name.reverse.takeWhile Char.isDigit).reverse)

/-- Head and subscript of a name: what follows the first underscore, or else the
final digits, provided that both parts hold something. -/
def subscript? (name : List Char) : Option (List Char × List Char) :=
  match splitFirst? '_' name with
  | some (head@(_ :: _), sub@(_ :: _)) => some (head, sub)
  | _ =>
      match splitDigits name with
      | (head@(_ :: _), sub@(_ :: _)) => some (head, sub)
      | _ => none

def symbolHead (name : List Char) : String :=
  let name := String.ofList name
  if greek.contains name then "\\" ++ name else name

theorem splitFirst?_eq {c : Char} {name before after : List Char}
    (split : splitFirst? c name = some (before, after)) : name = before ++ c :: after := by
  induction name generalizing before with
  | nil => cases split
  | cons d rest ih =>
      simp only [splitFirst?] at split
      split at split
      next same => cases split; simp [same]
      next =>
        obtain ⟨⟨b, a⟩, found, same⟩ := Option.map_eq_some_iff.mp split
        cases same
        simp [ih found]

theorem splitDigits_append (name : List Char) :
    (splitDigits name).1 ++ (splitDigits name).2 = name := by
  rw [splitDigits, ← List.reverse_append, List.takeWhile_append_dropWhile, List.reverse_reverse]

theorem subscript?_length {name head sub : List Char} (split : subscript? name = some (head, sub)) :
    sub.length < name.length := by
  have whole := splitDigits_append name
  simp only [subscript?] at split
  split at split
  next c h d s found =>
    cases split
    have := splitFirst?_eq found
    simp only [this, List.length_append, List.length_cons]
    omega
  next =>
    split at split
    next c h d s found =>
      cases split
      rw [found] at whole
      rw [← whole]
      simp only [List.length_append, List.length_cons]
      omega
    next => cases split

/-- A name with its subscripts; Greek letters get their commands. -/
def symbolOf (name : List Char) : String :=
  match h : subscript? name with
  | some (head, sub) =>
      have := subscript?_length h
      symbolHead head ++ "_" ++ braced (symbolOf sub)
  | none => symbolHead name
termination_by name.length

def symbol (name : String) : String := symbolOf name.toList

/-- A number; a fraction is written as such. -/
def rational (q : Rat) (place : Nat) : String :=
  if q.isInt then parenthesized (q < 0 && place > inSum) (toString q.num)
  else
    let fraction := "\\frac" ++ braced (toString q.num.natAbs) ++ braced (toString q.den)
    if q < 0 then parenthesized (place > inSum) ("- " ++ fraction)
    else parenthesized (place > inPower) fraction

def command : Fn → String
  | .sin => "\\sin" | .cos => "\\cos" | .tan => "\\tan"
  | .sec => "\\sec" | .csc => "\\csc" | .cot => "\\cot"
  | .asin => "\\operatorname" ++ braced "asin" | .acos => "\\operatorname" ++ braced "acos"
  | .atan => "\\operatorname" ++ braced "atan" | .asec => "\\operatorname" ++ braced "asec"
  | .acsc => "\\operatorname" ++ braced "acsc" | .acot => "\\operatorname" ++ braced "acot"
  | .sinh => "\\sinh" | .cosh => "\\cosh" | .tanh => "\\tanh"
  | .asinh => "\\operatorname" ++ braced "asinh" | .acosh => "\\operatorname" ++ braced "acosh"
  | .atanh => "\\operatorname" ++ braced "atanh"
  | .log => "\\log" | .exp => "\\exp" | .abs => "\\operatorname" ++ braced "abs"

/-- Heads whose positive integer powers are written on the head itself. -/
def raisesHead : Fn → Bool
  | .sin | .cos | .tan | .sec | .csc | .cot | .sinh | .cosh | .tanh => true
  | _ => false

def argument (text : String) : String := braced ("\\left(" ++ text ++ " \\right)")

/-- A product as one fraction. -/
structure Fraction where
  coeff : Rat
  numerator : List Expr
  denominator : List Expr

namespace Fraction

def ofFactor (inverted : Bool) (e : Expr) : Fraction :=
  if inverted then ⟨1, [], [e]⟩ else ⟨1, [e], []⟩

def mul (a b : Fraction) : Fraction :=
  ⟨a.coeff * b.coeff, a.numerator ++ b.numerator, a.denominator ++ b.denominator⟩

/-- Numbers make the coefficient and negative powers change sides. A divisor zero
stays a divisor. -/
def ofExpr (inverted : Bool) : Expr → Fraction
  | .const q =>
      if inverted then if q = 0 then ⟨1, [], [.const q]⟩ else ⟨q⁻¹, [], []⟩
      else ⟨q, [], []⟩
  | .neg a => let f := ofExpr inverted a; ⟨-f.coeff, f.numerator, f.denominator⟩
  | .mul a b => (ofExpr inverted a).mul (ofExpr inverted b)
  | .div a b => (ofExpr inverted a).mul (ofExpr (!inverted) b)
  | .pow a (.const k) =>
      if k = -1 then ofExpr (!inverted) a
      else if k < 0 then ofFactor (!inverted) (.pow a (.const (-k)))
      else ofFactor inverted (.pow a (.const k))
  | e => ofFactor inverted e

end Fraction

/-- Numbers, then marks, then symbols and their powers by name, then the rest. -/
def factorClass : Expr → Nat × String
  | .const _ => (0, "")
  | .pi | .infinity | .undefined => (1, "")
  | .var name | .pow (.var name) _ => (2, name)
  | _ => (3, "")

def factorLe (a b : Nat × String) : Bool := a.1 < b.1 || (a.1 = b.1 && !(b.2 < a.2))

def factorDegree? : Expr → Option Rat
  | .var _ => some 1
  | .pow (.var _) (.const k) => some k
  | .const _ | .pi => some 0
  | _ => none

/-- Monomials by degree, then other symbolic terms, then terms without symbols. -/
def termClass (term : Expr) : Nat × Rat :=
  if term.names.isEmpty then (2, 0)
  else match term.asMultiple.2.factors.mapM factorDegree? with
    | some degrees => (0, degrees.foldl (· + ·) 0)
    | none => (1, 0)

/-- Higher degrees come first within a class. -/
def termLe (a b : Nat × Rat) : Bool := a.1 < b.1 || (a.1 = b.1 && !(a.2 < b.2))

/-- The sign that is written between terms, and the term without it. -/
def asSigned : Expr → Bool × Expr
  | .neg a => let (negative, magnitude) := asSigned a; (!negative, magnitude)
  | .const q => if q < 0 then (true, .const (-q)) else (false, .const q)
  | .mul a b =>
      let (q, base) := (Expr.mul a b).asMultiple
      if q < 0 then
        (true,
          if base.isOne then .const (-q) else if -q = 1 then base else .mul (.const (-q)) base)
      else (false, .mul a b)
  | .div a b => let (negative, magnitude) := asSigned a; (negative, .div magnitude b)
  | e => (false, e)

/-! The layout of one level, given the writer of the next: an expression and the
binding strength of its place. -/

section
variable (write : Expr → Nat → String)

/-- The terms in their order, each after its sign. -/
def sumLayout (e : Expr) : String :=
  (Sorting.sortOn termClass termLe e.terms).foldl (fun out term =>
    let (negative, magnitude) := asSigned term
    let text := write magnitude inSum
    if out.isEmpty then if negative then "- " ++ text else text
    else out ++ (if negative then " - " else " + ") ++ text) ""

/-- A factor that starts with a digit is set off by a dot. -/
def juxtaposed (items : List Expr) : String :=
  items.foldl (fun out item =>
    let text := write item inProduct
    if out.isEmpty then text
    else out ++ (if (text.toList.head?.map Char.isDigit).getD false then " \\cdot " else " ") ++ text) ""

/-- A factor that stands alone in a part of a fraction needs no parentheses. -/
def fractionPart : List Expr → String
  | [item] => write item 0
  | items => juxtaposed write items

/-- A product as a fraction or as a row of factors, with one sign in front. -/
def productLayout (e : Expr) (place : Nat) : String :=
  let fraction := Fraction.ofExpr false e
  let negative := fraction.coeff < 0
  let top := Sorting.sortOn factorClass factorLe fraction.numerator
  let bottom := Sorting.sortOn factorClass factorLe fraction.denominator
  let p := fraction.coeff.num.natAbs
  let q := fraction.coeff.den
  let top := if p ≠ 1 || top.isEmpty then .const p :: top else top
  let bottom := if q ≠ 1 then .const q :: bottom else bottom
  let written (text : String) :=
    if negative then parenthesized (place > inSum) ("- " ++ text)
    else parenthesized (place > inProduct) text
  if bottom.isEmpty then
    match top with
    | [item] => if negative then written (juxtaposed write top) else write item place
    | _ => written (juxtaposed write top)
  else written ("\\frac" ++ braced (fractionPart write top) ++ braced (fractionPart write bottom))

/-- The base of a power; a head other than the absolute value is enclosed. -/
def baseLayout : Expr → String
  | .app .abs a => write (.app .abs a) asAtom
  | .app f a => "\\left(" ++ write (.app f a) 0 ++ "\\right)"
  | base => write base asAtom

/-- Powers that are neither roots nor written on a head. -/
def raisedLayout (base exponent : Expr) (place : Nat) : String :=
  parenthesized (place > inPower)
    ((if base.isEuler then "e" else baseLayout write base) ++ "^" ++ braced (write exponent 0))

/-- Negative powers are fractions, unit fractions roots, and some heads carry their
natural powers. -/
def powerLayout (base exponent : Expr) (place : Nat) : String :=
  match exponent, base with
  | .const k, base =>
      if k < 0 then productLayout write (.pow base (.const k)) place
      else if k.num = 1 && !k.isInt then
        (if k.den = 2 then "\\sqrt" else "\\sqrt[" ++ toString k.den ++ "]") ++ braced (write base 0)
      else match base with
        | .app f a =>
            if k.isInt && raisesHead f then
              parenthesized (place > inPower)
                (command f ++ "^" ++ braced (toString k.num) ++ argument (write a 0))
            else raisedLayout write base exponent place
        | base => raisedLayout write base exponent place
  | exponent, base => raisedLayout write base exponent place

def layout (e : Expr) (place : Nat) : String :=
  match e with
  | .var name => symbol name
  | .const q => rational q place
  | .pi => "\\pi"
  | .infinity => "\\infty"
  | .undefined => "\\text" ++ braced "NaN"
  | .add _ _ | .sub _ _ => parenthesized (place > inSum) (sumLayout write e)
  | .mul _ _ | .div _ _ | .neg _ => productLayout write e place
  | .pow base exponent => powerLayout write base exponent place
  | .app .exp a =>
      if a.isOne then "e"
      else parenthesized (place > inPower) ("e^" ++ braced (write a 0))
  | .app .abs a => "\\left|" ++ braced (write a 0) ++ "\\right|"
  | .app f a => command f ++ argument (write a 0)

end

/-- The text of an expression of bounded depth. -/
def writeWithin : Nat → Expr → Nat → String
  | 0, _, _ => ""
  | depth + 1, e, place => layout (writeWithin depth) e place

/-- Each level writes something smaller, or the same power without its sign. -/
def render (e : Expr) : String := writeWithin (2 * e.size + 1) e 0

end SymbolicAlgebra.Latex

def SymbolicAlgebra.Expr.latex (e : SymbolicAlgebra.Expr) : String := SymbolicAlgebra.Latex.render e
