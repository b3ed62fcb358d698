import SymbolicAlgebra.Expr
import SymbolicAlgebra.Number

/-! Expressions in the input syntax, for messages. How a subexpression is written
depends on where it stands: alone under a binding strength, as signed terms of a
sum, or as factors and divisors of a product. -/

namespace SymbolicAlgebra

/-! Binding strengths of the places in which an expression can stand. -/

namespace Binding

def loose : Nat := 0

def sum : Nat := 1

def product : Nat := 2

def unary : Nat := 3

def power : Nat := 4

end Binding

def Fn.name : Fn → String
  | .sin => "sin" | .cos => "cos" | .tan => "tan"
  | .sec => "sec" | .csc => "csc" | .cot => "cot"
  | .atan => "atan" | .asin => "asin" | .acos => "acos"
  | .asec => "asec" | .acsc => "acsc" | .acot => "acot"
  | .sinh => "sinh" | .cosh => "cosh" | .tanh => "tanh"
  | .asinh => "asinh" | .acosh => "acosh" | .atanh => "atanh"
  | .exp => "exp" | .log => "log" | .abs => "Abs"

namespace Plain

def parenthesized (needed : Bool) (text : String) : String :=
  if needed then "(" ++ text ++ ")" else text

structure Factor where
  divisor : Bool
  negative : Bool
  text : String

/-- The texts of an expression in each place. -/
structure Form where
  /-- Under a binding strength. -/
  text : Nat → String
  /-- As terms of a sum, each with its sign; all signs turn in a negated place. -/
  terms : Bool → List (Bool × String)
  /-- As factors, or as divisors in an inverted place. -/
  factors : Bool → List Factor

namespace Form

def factorBinding (divisor : Bool) : Nat := if divisor then Binding.power else Binding.unary

/-- An expression that is one term and one factor. -/
def atom (text : Nat → String) : Form where
  text := text
  terms := fun negative => [(negative, text Binding.product)]
  factors := fun divisor => [⟨divisor, false, text (factorBinding divisor)⟩]

def termsText : List (Bool × String) → String
  | [] => ""
  | (negative, text) :: rest =>
      (if negative then "-" ++ text else text) ++
        String.join (rest.map fun (negative, text) => (if negative then " - " else " + ") ++ text)

/-- The signs of all factors make one sign in front. -/
def factorsText (factors : List Factor) : String :=
  let numerator := (factors.filter fun f => !f.divisor).map (·.text)
  let divisors := (factors.filter (·.divisor)).map fun f => "/" ++ f.text
  let negative := factors.foldl (fun sign f => sign != f.negative) false
  (if negative then "-" else "") ++
    (if numerator.isEmpty then "1" else "*".intercalate numerator) ++ String.join divisors

def ofTerms (terms : Bool → List (Bool × String)) : Form :=
  { atom (fun binding => parenthesized (binding > Binding.sum) (termsText (terms false))) with
    terms := terms }

def ofFactors (factors : Bool → List Factor) : Form :=
  { atom (fun binding => parenthesized (binding > Binding.product) (factorsText (factors false))) with
    factors := factors }

/-- A negative factor is written without its sign. -/
def ofConst (q : Rat) : Form :=
  let form := atom fun binding =>
    parenthesized (binding ≥ Binding.unary && (q < 0 || !q.isInt)) (Number.text q)
  if q < 0 then { form with factors := fun divisor => [⟨divisor, true, Number.text (-q)⟩] }
  else form

def negated (form : Form) : Form where
  text := fun binding => parenthesized (binding > Binding.product) ("-" ++ form.text Binding.unary)
  terms := fun negative => form.terms !negative
  factors := fun divisor => [⟨divisor, true, form.text (factorBinding divisor)⟩]

end Form

/-- The texts of an expression from those of its parts. -/
def form : Expr → Form
  | .var name => .atom fun _ => name
  | .const q => .ofConst q
  | .pi => .atom fun _ => "pi"
  | .infinity => .atom fun _ => "oo"
  | .undefined => .atom fun _ => "nan"
  | .add a b => .ofTerms fun negative => (form a).terms negative ++ (form b).terms negative
  | .sub a b => .ofTerms fun negative => (form a).terms negative ++ (form b).terms !negative
  | .mul a b => .ofFactors fun divisor => (form a).factors divisor ++ (form b).factors divisor
  | .div a b => .ofFactors fun divisor => (form a).factors divisor ++ (form b).factors !divisor
  | .neg a => (form a).negated
  | .pow a b => .atom fun binding => parenthesized (binding > Binding.unary)
      ((form a).text Binding.power ++ "**" ++ (form b).text Binding.power)
  | .app f a => .atom fun _ =>
      if (Expr.app f a).isEuler then "E"
      else f.name ++ "(" ++ (form a).text Binding.loose ++ ")"

end Plain

/-- The text of an expression in the input syntax. -/
def Expr.plain (e : Expr) : String := (Plain.form e).text Binding.loose

end SymbolicAlgebra
