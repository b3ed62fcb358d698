import SymbolicAlgebra.Arithmetic.Product

/-! Linear forms `slope * symbol + offset` in at most one symbol. -/

namespace SymbolicAlgebra

structure LinearForm where
  slope : Rat
  offset : Rat
  symbol : Option String
  deriving DecidableEq

namespace LinearForm

def negated (l : LinearForm) : LinearForm := ⟨-l.slope, -l.offset, l.symbol⟩

/-- The sum, if the two sides name no different symbols. -/
def add? (l m : LinearForm) : Option LinearForm :=
  match l.symbol, m.symbol with
  | some a, some b =>
      if a = b then some ⟨l.slope + m.slope, l.offset + m.offset, some a⟩ else none
  | some a, none => some ⟨l.slope + m.slope, l.offset + m.offset, some a⟩
  | none, symbol => some ⟨l.slope + m.slope, l.offset + m.offset, symbol⟩

def ofExpr? : Expr → Option LinearForm
  | .var name => some ⟨1, 0, some name⟩
  | .const q => some ⟨0, q, none⟩
  | .neg a => (ofExpr? a).map negated
  | .mul (.const q) (.var name) | .mul (.var name) (.const q) => some ⟨q, 0, some name⟩
  | .add a b => (ofExpr? a).bind fun l => (ofExpr? b).bind fun m => l.add? m
  | .sub a b => (ofExpr? a).bind fun l => (ofExpr? b).bind fun m => l.add? m.negated
  | _ => none

/-- The term of the symbol first, then the offset. -/
def toExpr (l : LinearForm) : Expr :=
  match l.symbol with
  | none => .const l.offset
  | some name =>
      if l.slope = 0 then .const l.offset
      else
        let term := (Expr.const l.slope).times (.var name)
        if l.offset = 0 then term else term.plus (.const l.offset)

/-- The power with the slope in front: `(a x + b)^k` is `a^k (x + b/a)^k`. There is
none where nothing can be taken out or `a^k` is not folded. -/
def factoredPower? (l : LinearForm) (k : Rat) : Option Expr :=
  match l.symbol with
  | none => none
  | some name =>
      if l.slope = 0 ∨ l.slope = 1 then none
      else
        let shift := l.offset / l.slope
        let monic := if shift = 0 then .var name else (Expr.var name).plus (.const shift)
        (Number.power? l.slope k).map fun scale =>
          (Expr.const scale).times (monic.raise (.const k))

end LinearForm

/-- A linear form in its one shape; every other expression as it is. -/
def Expr.linearized (e : Expr) : Expr := ((LinearForm.ofExpr? e).map LinearForm.toExpr).getD e

end SymbolicAlgebra
