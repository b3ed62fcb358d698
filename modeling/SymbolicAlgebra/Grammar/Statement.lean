import SymbolicAlgebra.Grammar.Expression

/-! Lines of input: an expression, a relation between two, or a tuple of such.
Only an expression can be simplified and rendered; the other shapes are read so
that they can be refused by name. One comma may follow the last item. -/

namespace SymbolicAlgebra

inductive Clause where
  | scalar (e : Expr)
  | relation (op : Comparison) (lhs rhs : Expr)
  deriving DecidableEq, Repr

inductive Statement where
  | single (clause : Clause)
  | tuple (items : List Clause)
  deriving DecidableEq, Repr

namespace Grammar

/-- A relation needs both sides once its sign has been read. -/
def clause (tokens : List Lexeme) : Reading Clause :=
  match expression tokens with
  | .error fault => .error fault
  | .ok (lhs, ⟨.relation op, _⟩ :: tokens) =>
      match expression tokens with
      | .error fault => .error fault
      | .ok (rhs, tokens) => .ok (.relation op lhs rhs, tokens)
  | .ok (e, tokens) => .ok (.scalar e, tokens)

def startsExpression : List Lexeme → Bool
  | ⟨.plus, _⟩ :: _ | ⟨.minus, _⟩ :: _ | ⟨.openParen, _⟩ :: _ | ⟨.number _, _⟩ :: _
  | ⟨.word _, _⟩ :: _ => true
  | _ => false

/-- The items after the first. A comma that no item follows is dropped. -/
def moreClauses : Nat → List Lexeme → Reading (List Clause)
  | 0, tokens => .ok ([], tokens)
  | count + 1, tokens =>
      match tokens with
      | ⟨.comma, _⟩ :: tokens =>
          if startsExpression tokens then
            match clause tokens with
            | .error fault => .error fault
            | .ok (item, tokens) =>
                match moreClauses count tokens with
                | .error fault => .error fault
                | .ok (items, tokens) => .ok (item :: items, tokens)
          else .ok ([], tokens)
      | tokens => .ok ([], tokens)

/-- A single item is no tuple. -/
def statement (tokens : List Lexeme) : Reading Statement :=
  match clause tokens with
  | .error fault => .error fault
  | .ok (first, tokens) =>
      match moreClauses tokens.length tokens with
      | .error fault => .error fault
      | .ok ([], tokens) => .ok (.single first, tokens)
      | .ok (items, tokens) => .ok (.tuple (first :: items), tokens)

end Grammar

def Statement.parse (text : String) : Except SyntaxFault Statement :=
  match Grammar.statement (Lexeme.list text.toList) with
  | .error fault => .error fault
  | .ok (s, []) => .ok s
  | .ok (_, tokens) => .error ⟨Lexeme.rest tokens, none⟩

end SymbolicAlgebra
