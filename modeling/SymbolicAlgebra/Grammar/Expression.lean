import SymbolicAlgebra.Expr
import SymbolicAlgebra.Grammar.Token
import SymbolicAlgebra.Text.Blank

/-! The grammar of expressions. Sums and products associate to the left, powers
to the right; a sign binds weaker than a power and stronger than a product, and
an exponent may carry signs of its own. A word before a parenthesis is always a
call. The depth of the descent is bounded by the number of tokens. -/

namespace SymbolicAlgebra

inductive SyntaxCause where
  | operandExpected
  | exponentExpected
  | closingExpected
  | exponentOutOfRange
  | argumentMissing
  | functionUnknown
  deriving DecidableEq, Repr

def SyntaxCause.text : SyntaxCause → String
  | .operandExpected => "expected an operand"
  | .exponentExpected => "expected an exponent"
  | .closingExpected => "expected ')'"
  | .exponentOutOfRange => "exponent out of range"
  | .argumentMissing => "function requires an argument"
  | .functionUnknown => "unknown function"

/-- Where reading stopped, and the cause if one is known. -/
structure SyntaxFault where
  rest : List Char
  cause : Option SyntaxCause
  deriving DecidableEq, Repr

namespace SyntaxFault

/-- Positions count the bytes of the text before the fault. Without a cause the
next character that is not blank is named. -/
def detail (text : String) (fault : SyntaxFault) : String :=
  let position := " at position " ++ toString (Text.width text.toList - Text.width fault.rest)
  match fault.cause, Text.trimStart fault.rest with
  | some cause, _ => cause.text ++ position
  | none, [] => "unexpected end of input"
  | none, c :: _ => "unexpected '" ++ String.singleton c ++ "'" ++ position

end SyntaxFault

/-- The heads by the words that call them. -/
def Fn.ofWord? : String → Option Fn
  | "sin" => some .sin | "cos" => some .cos | "tan" => some .tan
  | "sec" => some .sec | "csc" => some .csc | "cot" => some .cot
  | "arctan" | "atan" => some .atan | "arcsin" | "asin" => some .asin
  | "arccos" | "acos" => some .acos | "arcsec" | "asec" => some .asec
  | "arccsc" | "acsc" => some .acsc | "arccot" | "acot" => some .acot
  | "sinh" => some .sinh | "cosh" => some .cosh | "tanh" => some .tanh
  | "arcsinh" | "asinh" => some .asinh | "arccosh" | "acosh" => some .acosh
  | "arctanh" | "atanh" => some .atanh
  | "exp" => some .exp | "log" | "ln" => some .log | "abs" | "Abs" => some .abs
  | _ => none

namespace Grammar

/-- What a word before an argument stands for, if it can be called. -/
def call? (word : String) (arg : Expr) : Option Expr :=
  if word = "sqrt" then some (.pow arg (.const (mkRat 1 2)))
  else (Fn.ofWord? word).map fun f => .app f arg

def isCallable (word : String) : Bool := word = "sqrt" || (Fn.ofWord? word).isSome

/-- What a word on its own stands for; one that can be called needs its argument. -/
def word? (word : String) : Option Expr :=
  if word = "pi" then some .pi
  else if word = "E" ∨ word = "e" then some .euler
  else if word = "oo" then some .infinity
  else if isCallable word then none
  else some (.var word)

/-- A value and the remaining tokens, or the fault. -/
abbrev Reading (α : Type) := Except SyntaxFault (α × List Lexeme)

def fail (cause : Option SyntaxCause) (tokens : List Lexeme) : Reading α :=
  .error ⟨Lexeme.rest tokens, cause⟩

/-- Give a fault its cause, unless an inner rule has given one. -/
def named (cause : SyntaxCause) : Reading α → Reading α
  | .error ⟨rest, none⟩ => .error ⟨rest, some cause⟩
  | reading => reading

mutual

def sum : Nat → List Lexeme → Reading Expr
  | 0, tokens => fail none tokens
  | depth + 1, tokens =>
      match product depth tokens with
      | .error fault => .error fault
      | .ok (a, tokens) => sumRest depth a tokens

def sumRest : Nat → Expr → List Lexeme → Reading Expr
  | 0, _, tokens => fail none tokens
  | depth + 1, a, tokens =>
      match tokens with
      | ⟨.plus, _⟩ :: tokens =>
          match named .operandExpected (product depth tokens) with
          | .error fault => .error fault
          | .ok (b, tokens) => sumRest depth (.add a b) tokens
      | ⟨.minus, _⟩ :: tokens =>
          match named .operandExpected (product depth tokens) with
          | .error fault => .error fault
          | .ok (b, tokens) => sumRest depth (.sub a b) tokens
      | tokens => .ok (a, tokens)

def product : Nat → List Lexeme → Reading Expr
  | 0, tokens => fail none tokens
  | depth + 1, tokens =>
      match signed depth tokens with
      | .error fault => .error fault
      | .ok (a, tokens) => productRest depth a tokens

def productRest : Nat → Expr → List Lexeme → Reading Expr
  | 0, _, tokens => fail none tokens
  | depth + 1, a, tokens =>
      match tokens with
      | ⟨.star, _⟩ :: tokens =>
          match named .operandExpected (signed depth tokens) with
          | .error fault => .error fault
          | .ok (b, tokens) => productRest depth (.mul a b) tokens
      | ⟨.slash, _⟩ :: tokens =>
          match named .operandExpected (signed depth tokens) with
          | .error fault => .error fault
          | .ok (b, tokens) => productRest depth (.div a b) tokens
      | tokens => .ok (a, tokens)

def signed : Nat → List Lexeme → Reading Expr
  | 0, tokens => fail none tokens
  | depth + 1, tokens =>
      match tokens with
      | ⟨.minus, _⟩ :: tokens =>
          match signed depth tokens with
          | .error fault => .error fault
          | .ok (a, tokens) => .ok (.neg a, tokens)
      | ⟨.plus, _⟩ :: tokens => signed depth tokens
      | tokens => power depth tokens

def power : Nat → List Lexeme → Reading Expr
  | 0, tokens => fail none tokens
  | depth + 1, tokens =>
      match primary depth tokens with
      | .error fault => .error fault
      | .ok (base, ⟨.power, _⟩ :: tokens) =>
          match named .exponentExpected (signed depth tokens) with
          | .error fault => .error fault
          | .ok (exponent, tokens) => .ok (.pow base exponent, tokens)
      | .ok (base, tokens) => .ok (base, tokens)

def primary : Nat → List Lexeme → Reading Expr
  | 0, tokens => fail none tokens
  | depth + 1, tokens =>
      match tokens with
      | ⟨.openParen, _⟩ :: tokens => enclosed depth tokens
      | ⟨.number d, start⟩ :: tokens =>
          match d.value? with
          | some q => .ok (.const q, tokens)
          | none => .error ⟨start, some .exponentOutOfRange⟩
      | ⟨.word word, start⟩ :: ⟨.openParen, _⟩ :: tokens =>
          match enclosed depth tokens with
          | .error fault => .error fault
          | .ok (arg, tokens) =>
              match call? word arg with
              | some e => .ok (e, tokens)
              | none => .error ⟨start, some .functionUnknown⟩
      | ⟨.word word, start⟩ :: tokens =>
          match word? word with
          | some e => .ok (e, tokens)
          | none => .error ⟨start, some .argumentMissing⟩
      | tokens => fail none tokens

/-- A sum and the parenthesis that closes it. -/
def enclosed : Nat → List Lexeme → Reading Expr
  | 0, tokens => fail none tokens
  | depth + 1, tokens =>
      match sum depth tokens with
      | .error fault => .error fault
      | .ok (a, ⟨.closeParen, _⟩ :: tokens) => .ok (a, tokens)
      | .ok (_, tokens) => fail (some .closingExpected) tokens

end

/-- Each token takes the descent at most eight rules deeper. -/
def expression (tokens : List Lexeme) : Reading Expr := sum (8 * tokens.length + 8) tokens

end Grammar

/-- Read a text that is one expression. -/
def Expr.parse (text : String) : Except SyntaxFault Expr :=
  match Grammar.expression (Lexeme.list text.toList) with
  | .error fault => .error fault
  | .ok (e, []) => .ok e
  | .ok (_, tokens) => .error ⟨Lexeme.rest tokens, none⟩

end SymbolicAlgebra
