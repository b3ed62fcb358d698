import SymbolicAlgebra.Grammar.Decimal

/-! Tokens of the input language. At each place the longest token is taken; a
character that starts none is a token of its own, which no rule accepts. A token
keeps the text from its start on, so that a fault can name its position. -/

namespace SymbolicAlgebra

inductive Comparison where
  | eq | ne | lt | le | gt | ge
  deriving DecidableEq, Repr

def Comparison.symbol : Comparison → String
  | .eq => "==" | .ne => "!=" | .lt => "<" | .le => "<=" | .gt => ">" | .ge => ">="

inductive Token where
  | number (value : Decimal)
  | word (name : String)
  | plus | minus | star | slash
  /-- Either spelling of the power sign. -/
  | power
  | openParen | closeParen | comma
  | relation (op : Comparison)
  | stray (c : Char)
  deriving DecidableEq, Repr

namespace Token

def isBlank (c : Char) : Bool := c = ' ' || c = '\t' || c = '\r' || c = '\n'

def isWordChar (c : Char) : Bool := c.isAlphanum || c = '_'

def ofSymbol : List Char → Token × List Char
  | '*' :: '*' :: rest => (power, rest)
  | '^' :: rest => (power, rest)
  | '*' :: rest => (star, rest)
  | '/' :: rest => (slash, rest)
  | '+' :: rest => (plus, rest)
  | '-' :: rest => (minus, rest)
  | '(' :: rest => (openParen, rest)
  | ')' :: rest => (closeParen, rest)
  | ',' :: rest => (comma, rest)
  | '=' :: '=' :: rest => (relation .eq, rest)
  | '!' :: '=' :: rest => (relation .ne, rest)
  | '<' :: '=' :: rest => (relation .le, rest)
  | '>' :: '=' :: rest => (relation .ge, rest)
  | '<' :: rest => (relation .lt, rest)
  | '>' :: rest => (relation .gt, rest)
  | '=' :: rest => (relation .eq, rest)
  | c :: rest => (stray c, rest)
  | [] => (stray ' ', [])

/-- The first token of a text that starts with no blank, and what follows it. -/
def scan (cs : List Char) : Token × List Char :=
  match cs with
  | c :: rest =>
      if c.isAlpha then
        (word (String.ofList (c :: rest.takeWhile isWordChar)), rest.dropWhile isWordChar)
      else match Decimal.read? cs with
        | some (d, after) => (number d, after)
        | none => ofSymbol cs
  | [] => ofSymbol []

theorem ofSymbol_length (c : Char) (rest : List Char) :
    (ofSymbol (c :: rest)).2.length ≤ rest.length := by
  unfold ofSymbol
  split <;> simp_all

theorem scan_length (c : Char) (rest : List Char) : (scan (c :: rest)).2.length ≤ rest.length := by
  simp only [scan]
  split
  · exact (rest.dropWhile_suffix isWordChar).length_le
  · split
    next read => exact Nat.le_of_lt_succ (Decimal.read?_length read)
    next => exact ofSymbol_length c rest

end Token

/-- A token with the text from its start on. -/
structure Lexeme where
  token : Token
  start : List Char
  deriving DecidableEq, Repr

namespace Lexeme

def list (cs : List Char) : List Lexeme :=
  match cs with
  | [] => []
  | c :: rest =>
      if Token.isBlank c then list rest
      else
        have := Token.scan_length c rest
        ⟨(Token.scan (c :: rest)).1, c :: rest⟩ :: list (Token.scan (c :: rest)).2
termination_by cs.length

/-- The text that is left before the first of the remaining tokens. -/
def rest : List Lexeme → List Char
  | [] => []
  | l :: _ => l.start

end Lexeme
end SymbolicAlgebra
