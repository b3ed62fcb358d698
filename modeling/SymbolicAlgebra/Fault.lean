import SymbolicAlgebra.Grammar.Statement
import SymbolicAlgebra.Rendering.Plain

/-! Why a text is refused. A fault is its cause with what the message has to name;
three kinds tell an unreadable text from an expression without a value and from
a statement that is no expression. -/

namespace SymbolicAlgebra

inductive Fault where
  | unreadable (text : String) (fault : SyntaxFault)
  | divisionByZero (e : Expr)
  | zeroToNegativePower (e : Expr)
  | undefinedAtZero (e : Expr)
  | indeterminate (source : String)
  | strayNames (allowed : String) (names : List String)
  | tuple (count : Nat)
  | relation (op : Comparison) (lhs rhs : Expr)
  deriving DecidableEq, Repr

inductive FaultKind where
  | parse | value | unsupported
  deriving DecidableEq, Repr

namespace Fault

def kind : Fault → FaultKind
  | unreadable .. => .parse
  | tuple .. | relation .. => .unsupported
  | _ => .value

def unreadableMessage (text detail : String) : String :=
  "could not parse '" ++ text ++ "': " ++ detail

def message : Fault → String
  | unreadable text fault => unreadableMessage text (fault.detail text)
  | divisionByZero e => "division by zero in '" ++ e.plain ++ "'"
  | zeroToNegativePower e => "zero raised to a negative power in '" ++ e.plain ++ "'"
  | undefinedAtZero e => "'" ++ e.plain ++ "' is undefined at zero"
  | indeterminate source =>
      "indeterminate form in '" ++ String.ofList (Text.trim source.toList) ++ "'"
  | strayNames name names =>
      "the function may only depend on " ++ name ++ ", found " ++ ", ".intercalate names
  | tuple count => "a tuple of " ++ toString count ++ " elements is not a scalar expression"
  | relation op lhs rhs =>
      "the relation '" ++ lhs.plain ++ " " ++ op.symbol ++ " " ++ rhs.plain
        ++ "' is not a scalar expression"

end Fault

/-- Read a text that is one expression, or say why it is none. -/
def Expr.ofText (text : String) : Except Fault Expr :=
  (Expr.parse text).mapError (Fault.unreadable text)

def Statement.ofText (text : String) : Except Fault Statement :=
  (Statement.parse text).mapError (Fault.unreadable text)

def Statement.scalar : Statement → Except Fault Expr
  | single (.scalar e) => .ok e
  | single (.relation op lhs rhs) => .error (.relation op lhs rhs)
  | tuple items => .error (.tuple items.length)

/-- Read a text that is a statement and as such an expression. -/
def Expr.ofStatementText (text : String) : Except Fault Expr :=
  match Statement.ofText text with
  | .error fault => .error fault
  | .ok s => s.scalar

end SymbolicAlgebra
