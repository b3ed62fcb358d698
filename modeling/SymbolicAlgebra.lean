import SymbolicAlgebra.Arithmetic.Expansion
import SymbolicAlgebra.Arithmetic.Factor
import SymbolicAlgebra.Arithmetic.Product
import SymbolicAlgebra.Arithmetic.Sum
import SymbolicAlgebra.CanonicalForm
import SymbolicAlgebra.Collection.Picking
import SymbolicAlgebra.Collection.Sorting
import SymbolicAlgebra.Collection.Tally
import SymbolicAlgebra.Definedness
import SymbolicAlgebra.DefiniteIntegral
import SymbolicAlgebra.Evaluation
import SymbolicAlgebra.Expr
import SymbolicAlgebra.Expr.Order
import SymbolicAlgebra.Expr.TotalOrder
import SymbolicAlgebra.Fault
import SymbolicAlgebra.FixedPoint
import SymbolicAlgebra.Grammar.Decimal
import SymbolicAlgebra.Grammar.Expression
import SymbolicAlgebra.Grammar.Statement
import SymbolicAlgebra.Grammar.Token
import SymbolicAlgebra.Identity.Function
import SymbolicAlgebra.Identity.Trigonometric
import SymbolicAlgebra.InputLine
import SymbolicAlgebra.Main
import SymbolicAlgebra.NormalForm
import SymbolicAlgebra.NormalForm.Cancellation
import SymbolicAlgebra.NormalForm.FactoredProduct
import SymbolicAlgebra.NormalForm.Linear
import SymbolicAlgebra.Number
import SymbolicAlgebra.Polynomial
import SymbolicAlgebra.Polynomial.Division
import SymbolicAlgebra.Polynomial.Expression
import SymbolicAlgebra.Program
import SymbolicAlgebra.Rendering.Latex
import SymbolicAlgebra.Rendering.Plain
import SymbolicAlgebra.RunFault
import SymbolicAlgebra.Text.Blank
import SymbolicAlgebra.Proofs.Valuation
import SymbolicAlgebra.Proofs.Valuation.Factor
import SymbolicAlgebra.Proofs.Collection.Tally
import SymbolicAlgebra.Proofs.Expr.ListOrder
import SymbolicAlgebra.Proofs.Valuation.Sum
import SymbolicAlgebra.Proofs.Number
import SymbolicAlgebra.Proofs.Arithmetic.Raising
import SymbolicAlgebra.Proofs.Valuation.Product
import SymbolicAlgebra.Proofs.Valuation.Identity
import SymbolicAlgebra.Proofs.Valuation.Real
import SymbolicAlgebra.Proofs.Valuation.Simplification
import SymbolicAlgebra.Proofs.Polynomial
import SymbolicAlgebra.Proofs.Polynomial.Product
import SymbolicAlgebra.Proofs.Polynomial.Coefficients
import SymbolicAlgebra.Proofs.Polynomial.Division
import SymbolicAlgebra.Proofs.Polynomial.CommonDivisor
import SymbolicAlgebra.Proofs.Polynomial.Denotation
import SymbolicAlgebra.Proofs.NormalForm
import SymbolicAlgebra.Proofs.Valuation.Cancellation
import SymbolicAlgebra.Proofs.Valuation.Linear
import SymbolicAlgebra.Proofs.Valuation.CanonicalForm
import SymbolicAlgebra.Proofs.Hereditary
import SymbolicAlgebra.Proofs.Hereditary.Product
import SymbolicAlgebra.Proofs.Arithmetic.Recursion
import SymbolicAlgebra.Proofs.Hereditary.Evaluation
import SymbolicAlgebra.Proofs.Hereditary.CanonicalForm
import SymbolicAlgebra.Proofs.Definedness
import SymbolicAlgebra.Proofs.Safety
import SymbolicAlgebra.Proofs.Safety.CanonicalForm
import SymbolicAlgebra.Proofs.Safety.AcceptedText
import SymbolicAlgebra.Proofs.Grammar.Derivation
import SymbolicAlgebra.Proofs.Grammar.Reading
import SymbolicAlgebra.Proofs.Grammar.Words
import SymbolicAlgebra.Proofs.Grammar.Spelling
import SymbolicAlgebra.Proofs.Grammar.Statement
import SymbolicAlgebra.Proofs.Grammar.Notation
import SymbolicAlgebra.Proofs.Arithmetic.Expansion
import SymbolicAlgebra.Proofs.Arithmetic.Factor
import SymbolicAlgebra.Proofs.NormalForm.Recursion
import SymbolicAlgebra.Proofs.Arithmetic.Sum
import SymbolicAlgebra.Proofs.Arithmetic.Product
import SymbolicAlgebra.Proofs.FixedPoint
import SymbolicAlgebra.Proofs.Loop
import SymbolicAlgebra.Proofs.Polynomial.Expression
import SymbolicAlgebra.Proofs.Polynomial.Reading
import SymbolicAlgebra.Proofs.NormalForm.Product
import SymbolicAlgebra.Proofs.NormalForm.Sum
import SymbolicAlgebra.Proofs.NormalForm.Quotient
import SymbolicAlgebra.Proofs.Arithmetic.Quotient
import SymbolicAlgebra.Proofs.NormalForm.ExactQuotient
import SymbolicAlgebra.Proofs.Arithmetic.Size
import SymbolicAlgebra.Proofs.Arithmetic.Distribution
import SymbolicAlgebra.Proofs.Polynomial.Cofactor
import SymbolicAlgebra.Proofs.Polynomial.Expansion
import SymbolicAlgebra.Proofs.CanonicalForm
import SymbolicAlgebra.Proofs.NormalForm.Exponential
import SymbolicAlgebra.Proofs.CanonicalForm.ExponentialIntegrand
import SymbolicAlgebra.Proofs.Arithmetic.Power
import SymbolicAlgebra.Proofs.Collection.Picking
import SymbolicAlgebra.Proofs.Expr.Parts
import SymbolicAlgebra.Proofs.Fault
import SymbolicAlgebra.Proofs.Identity.Trigonometric
import SymbolicAlgebra.Proofs.NormalForm.Cancellation
import SymbolicAlgebra.Proofs.NormalForm.Power
import SymbolicAlgebra.Proofs.Program
import SymbolicAlgebra.Proofs.Valuation.Definedness
import SymbolicAlgebra.Proofs.Valuation.FactoredProduct
import SymbolicAlgebra.Proofs.Valuation.Polynomial
import SymbolicAlgebra.Proofs.Grammar.Joining
import SymbolicAlgebra.Proofs.Semantics
import SymbolicAlgebra.Proofs.Rendering.Shown
import SymbolicAlgebra.Proofs.Rendering.Plain
import SymbolicAlgebra.Proofs.Arithmetic.Infinity
import SymbolicAlgebra.Proofs.Arithmetic.InfinitePower
import SymbolicAlgebra.Proofs.Indeterminate
import SymbolicAlgebra.Proofs.ExtendedReal
import SymbolicAlgebra.Proofs.ExtendedReal.Arithmetic
import SymbolicAlgebra.Proofs.Rendering.Latex
import SymbolicAlgebra.Proofs.Rendering.Latex.Parts
import SymbolicAlgebra.Proofs.Rendering.Latex.Reader
import SymbolicAlgebra.Proofs.Rendering.Latex.Layout
import SymbolicAlgebra.Proofs.Valuation.Rational
import SymbolicAlgebra.Proofs.Polynomial.Readable
import SymbolicAlgebra.Proofs.Polynomial.RoundTrip
import SymbolicAlgebra.Proofs.NormalForm.LowestTerms
import SymbolicAlgebra.Proofs.Shape
import SymbolicAlgebra.Proofs.Grammar.Separator
import SymbolicAlgebra.Proofs.Grammar.Soundness
import SymbolicAlgebra.Proofs.Atoms
import SymbolicAlgebra.Proofs.Arithmetic.Commutation
import SymbolicAlgebra.Proofs.Arithmetic.Bracketing
import SymbolicAlgebra.Proofs.Polynomial.Collection
import SymbolicAlgebra.Proofs.Arithmetic.PowerProduct
import SymbolicAlgebra.Proofs.Arithmetic.MultipliedOut
import SymbolicAlgebra.Proofs.Grammar.Numeral
import SymbolicAlgebra.Proofs.Grammar.Range
import SymbolicAlgebra.Proofs.Identity.Parity
import SymbolicAlgebra.Proofs.Rendering.Symbols
import SymbolicAlgebra.Proofs.Polynomial.Power
import SymbolicAlgebra.Proofs.Text.Blank
import SymbolicAlgebra.Proofs.InputLine
import SymbolicAlgebra.Proofs.Rendering.Latex.Recursion
import SymbolicAlgebra.Proofs.Rendering.Latex.Brackets
import SymbolicAlgebra.Proofs.Rendering.Latex.Nesting
