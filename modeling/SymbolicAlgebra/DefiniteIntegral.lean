import SymbolicAlgebra.CanonicalForm
import SymbolicAlgebra.Definedness
import SymbolicAlgebra.Rendering.Latex

/-! Definite integrals read from three texts. Every text is checked before the
next one is read. A bound is evaluated once, so that it keeps its shape; an
integrand is brought into canonical form and may name only the variable. -/

namespace SymbolicAlgebra

/-- What an integrand is read with. -/
structure Settings where
  /-- The leading text of the line of the bounds. -/
  boundsLabel : String := "Bounds   : "
  /-- The leading text of the line of the function. -/
  functionLabel : String := "Function : "
  /-- The variable of integration. -/
  symbol : String := "x"
  /-- The most passes made over an integrand. -/
  passes : Nat := Expr.defaultPasses
  deriving DecidableEq, Repr

/-- Read a bound: any determinate expression, infinite or not. -/
def Expr.ofBoundText (text : String) : Except Fault Expr := do
  let e ← Expr.ofStatementText text
  e.requireDefined
  e.evaluate.requireDeterminate text
  return e.evaluate

/-- Read an integrand in the variable of the settings. -/
def Expr.ofIntegrandText (settings : Settings) (text : String) : Except Fault Expr := do
  let e ← Expr.ofStatementText text
  e.requireDefined
  let canonical := e.canonicalize settings.passes
  canonical.requireDeterminate text
  canonical.requireOnly settings.symbol
  return canonical

structure DefiniteIntegral where
  lower : Expr
  upper : Expr
  integrand : Expr
  symbol : String
  deriving DecidableEq, Repr

namespace DefiniteIntegral

/-- The integral sign with the texts of its four parts. -/
def template (lower upper integrand symbol : String) : String :=
  "\\int_" ++ Latex.braced lower ++ "^" ++ Latex.braced upper ++ " " ++ integrand ++ " \\mathrm"
    ++ Latex.braced "d" ++ symbol

/-- The integral as LaTeX. -/
def latex (i : DefiniteIntegral) : String :=
  template i.lower.latex i.upper.latex i.integrand.latex i.symbol

/-- Read the three texts in order; the first fault decides. -/
def ofTexts (settings : Settings) (lower upper function : String) :
    Except Fault DefiniteIntegral := do
  let lower ← Expr.ofBoundText lower
  let upper ← Expr.ofBoundText upper
  let integrand ← Expr.ofIntegrandText settings function
  return ⟨lower, upper, integrand, settings.symbol⟩

end DefiniteIntegral
end SymbolicAlgebra
