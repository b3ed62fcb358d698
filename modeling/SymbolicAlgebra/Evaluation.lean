import SymbolicAlgebra.Arithmetic.Product
import SymbolicAlgebra.Identity.Function
import SymbolicAlgebra.Expr.TotalOrder
import Std.Data.DTreeMap.Basic

/-! One pass of evaluation, bottom up: every node is rebuilt by the arithmetic of
its form. A table of finished results makes repeated subexpressions cheap; an
entry carries the proof that it is the evaluation of its key, so the table
cannot change a result. -/

namespace SymbolicAlgebra.Expr

/-- One pass on its own. -/
def evaluate : Expr → Expr
  | add a b => a.evaluate.plus b.evaluate
  | sub a b => a.evaluate.minus b.evaluate
  | mul a b => a.evaluate.times b.evaluate
  | div a b => a.evaluate.dividedBy b.evaluate
  | pow a b => a.evaluate.raise b.evaluate
  | neg a => a.evaluate.negate
  | app f a => apply f a.evaluate
  | e => e

structure Evaluated (e : Expr) where
  result : Expr
  result_eq : result = e.evaluate

abbrev Table := Std.DTreeMap Expr Evaluated cmp

def Table.record (e : Expr) (r : Evaluated e) (table : Table) : Evaluated e × Table :=
  (r, table.insert e r)

/-- Evaluate with the results found so far, and keep the new ones. -/
def evaluateIn (e : Expr) (table : Table) : Evaluated e × Table :=
  match table.get? e with
  | some r => (r, table)
  | none =>
    match e with
    | add a b =>
        let (r, table) := a.evaluateIn table
        let (s, table) := b.evaluateIn table
        table.record (add a b) ⟨r.result.plus s.result, by rw [r.result_eq, s.result_eq, evaluate]⟩
    | sub a b =>
        let (r, table) := a.evaluateIn table
        let (s, table) := b.evaluateIn table
        table.record (sub a b) ⟨r.result.minus s.result, by rw [r.result_eq, s.result_eq, evaluate]⟩
    | mul a b =>
        let (r, table) := a.evaluateIn table
        let (s, table) := b.evaluateIn table
        table.record (mul a b) ⟨r.result.times s.result, by rw [r.result_eq, s.result_eq, evaluate]⟩
    | div a b =>
        let (r, table) := a.evaluateIn table
        let (s, table) := b.evaluateIn table
        table.record (div a b) ⟨r.result.dividedBy s.result, by rw [r.result_eq, s.result_eq, evaluate]⟩
    | pow a b =>
        let (r, table) := a.evaluateIn table
        let (s, table) := b.evaluateIn table
        table.record (pow a b) ⟨r.result.raise s.result, by rw [r.result_eq, s.result_eq, evaluate]⟩
    | neg a =>
        let (r, table) := a.evaluateIn table
        table.record (neg a) ⟨r.result.negate, by rw [r.result_eq, evaluate]⟩
    | app f a =>
        let (r, table) := a.evaluateIn table
        table.record (app f a) ⟨apply f r.result, by rw [r.result_eq, evaluate]⟩
    | var name => (⟨var name, rfl⟩, table)
    | const q => (⟨const q, rfl⟩, table)
    | pi => (⟨pi, rfl⟩, table)
    | infinity => (⟨infinity, rfl⟩, table)
    | undefined => (⟨undefined, rfl⟩, table)

end SymbolicAlgebra.Expr
