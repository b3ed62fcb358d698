/-! Expressions over named symbols and exact rationals. A tree is kept as it is
written: nothing here simplifies, so `neg (const 3)` and `const (-3)` differ. -/

namespace SymbolicAlgebra

/-- The heads of one argument. Square roots are powers and so are no head. -/
inductive Fn where
  | sin | cos | tan | sec | csc | cot
  | atan | asin | acos | asec | acsc | acot
  | sinh | cosh | tanh | asinh | acosh | atanh
  | exp | log | abs
  deriving DecidableEq, Repr

inductive Expr where
  | var (name : String)
  | const (value : Rat)
  | pi
  | infinity
  /-- The result of an indeterminate form such as `oo - oo`. -/
  | undefined
  | add (a b : Expr)
  | sub (a b : Expr)
  | mul (a b : Expr)
  | div (a b : Expr)
  | pow (base exponent : Expr)
  | neg (a : Expr)
  | app (f : Fn) (arg : Expr)
  deriving DecidableEq, Repr

namespace Expr

def zero : Expr := const 0

def one : Expr := const 1

/-- The number `e` is `exp` at one, so that `e^x` and `exp x` coincide. -/
def euler : Expr := app .exp one

def isZero : Expr → Bool
  | const q => q = 0
  | _ => false

def isOne : Expr → Bool
  | const q => q = 1
  | _ => false

def isEuler : Expr → Bool
  | app .exp a => a.isOne
  | _ => false

def isSum : Expr → Bool
  | add _ _ | sub _ _ => true
  | _ => false

@[simp] theorem isZero_iff (e : Expr) : e.isZero = true ↔ e = zero := by
  cases e <;> simp [isZero, zero]

@[simp] theorem isOne_iff (e : Expr) : e.isOne = true ↔ e = one := by
  cases e <;> simp [isOne, one]

def symbol? : Expr → Option String
  | var name => some name
  | _ => none

def value? : Expr → Option Rat
  | const q => some q
  | _ => none

/-- The number written by a constant under any number of signs. -/
def literal? : Expr → Option Rat
  | const q => some q
  | neg a => a.literal?.map (fun q => -q)
  | _ => none

/-- The argument of a head; a sign is no head. -/
def arg? : Expr → Option Expr
  | app _ a => some a
  | _ => none

/-- The same head around another argument. -/
def withArg : Expr → Expr → Expr
  | app f _, a => app f a
  | e, _ => e

/-- The opposite, folded into a constant or cancelled against a sign. -/
def opposite : Expr → Expr
  | const q => const (-q)
  | neg a => a
  | e => neg e

def size : Expr → Nat
  | var _ | const _ | pi | infinity | undefined => 1
  | add a b | sub a b | mul a b | div a b | pow a b => 1 + a.size + b.size
  | neg a | app _ a => 1 + a.size

theorem size_pos (e : Expr) : 0 < e.size := by
  cases e <;> simp only [size] <;> omega

/-- Every occurrence of a symbol, from left to right. -/
def names : Expr → List String
  | var name => [name]
  | const _ | pi | infinity | undefined => []
  | add a b | sub a b | mul a b | div a b | pow a b => a.names ++ b.names
  | neg a | app _ a => a.names

def mentions (name : String) : Expr → Bool
  | var other => other = name
  | const _ | pi | infinity | undefined => false
  | add a b | sub a b | mul a b | div a b | pow a b => a.mentions name || b.mentions name
  | neg a | app _ a => a.mentions name

theorem mentions_iff (name : String) (e : Expr) : e.mentions name = true ↔ name ∈ e.names := by
  induction e with
  | var other => simp [mentions, names, eq_comm (a := other)]
  | _ => simp_all [mentions, names]

def hasUndefined : Expr → Bool
  | undefined => true
  | var _ | const _ | pi | infinity => false
  | add a b | sub a b | mul a b | div a b | pow a b => a.hasUndefined || b.hasUndefined
  | neg a | app _ a => a.hasUndefined

end Expr
end SymbolicAlgebra
