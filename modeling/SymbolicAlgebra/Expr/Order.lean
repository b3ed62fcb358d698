import SymbolicAlgebra.Expr

/-! The order in which terms and factors are kept. Expressions compare by their
outermost form, in the order in which the forms are declared, then by their
parts from left to right. Names compare by code points and numbers by value. -/

namespace SymbolicAlgebra

def Fn.rank : Fn → Nat
  | .sin => 0 | .cos => 1 | .tan => 2 | .sec => 3 | .csc => 4 | .cot => 5
  | .atan => 6 | .asin => 7 | .acos => 8 | .asec => 9 | .acsc => 10 | .acot => 11
  | .sinh => 12 | .cosh => 13 | .tanh => 14 | .asinh => 15 | .acosh => 16 | .atanh => 17
  | .exp => 18 | .log => 19 | .abs => 20

theorem Fn.rank_inj {f g : Fn} (h : f.rank = g.rank) : f = g := by
  revert h
  cases f <;> cases g <;> decide

namespace Expr

def rank : Expr → Nat
  | var _ => 0 | const _ => 1 | pi => 2 | infinity => 3 | undefined => 4
  | add _ _ => 5 | sub _ _ => 6 | mul _ _ => 7 | div _ _ => 8 | pow _ _ => 9
  | neg _ => 10 | app _ _ => 11

def cmp : Expr → Expr → Ordering
  | var a, var b => compareOfLessAndEq a b
  | const p, const q => compareOfLessAndEq p q
  | add a b, add c d | sub a b, sub c d | mul a b, mul c d | div a b, div c d
  | pow a b, pow c d => (a.cmp c).then (b.cmp d)
  | neg a, neg b => a.cmp b
  | app f a, app g b => (compareOfLessAndEq f.rank g.rank).then (a.cmp b)
  | a, b => compareOfLessAndEq a.rank b.rank

/-- Not after, as a Boolean comparison. -/
def le (a b : Expr) : Bool := (a.cmp b).isLE

/-- The first unequal members decide; a list comes before its extensions. -/
def cmpList : List Expr → List Expr → Ordering
  | [], [] => .eq
  | [], _ :: _ => .lt
  | _ :: _, [] => .gt
  | a :: as, b :: bs => (a.cmp b).then (cmpList as bs)

/-- Place a name among names in order, once. -/
def insertName (name : String) : List String → List String
  | [] => [name]
  | other :: rest =>
      if name < other then name :: other :: rest
      else if name = other then other :: rest
      else other :: insertName name rest

@[simp] theorem mem_insertName (name other : String) (names : List String) :
    other ∈ insertName name names ↔ other = name ∨ other ∈ names := by
  induction names with
  | nil => simp [insertName]
  | cons head rest ih =>
      simp only [insertName]
      split
      · simp
      · split
        next same => simp [same]
        next => simp only [List.mem_cons, ih, or_left_comm]

/-- The free symbols, in order and without repetition. -/
def symbols (e : Expr) : List String := e.names.foldr insertName []

theorem mem_symbols (name : String) (e : Expr) : name ∈ e.symbols ↔ name ∈ e.names := by
  unfold symbols
  induction e.names with
  | nil => simp
  | cons head rest ih => simp [ih]

end Expr
end SymbolicAlgebra
