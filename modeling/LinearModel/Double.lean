import LinearModel.Scalar
import LinearModel.Decimal.Shortest
import LinearModel.Decimal.Significant

/-!
# Double precision scalars
-/
namespace LinearModel

open Decimal

/-- Models run in double precision. -/
instance : Scalar Float where
  ofInt := Binary64.ofInt
  ofDecimal := Binary64.ofDecimal
  infinity := 1.0 / 0.0
  undefined := 0.0 / 0.0
  epsilon := Binary64.ofDecimal 1 (-10)
  eq x y := x == y
  lt x y := x < y
  le x y := x ≤ y
  toRat? := Binary64.toRat?
  text := shortestText
  exchangeText := significantText

end LinearModel
