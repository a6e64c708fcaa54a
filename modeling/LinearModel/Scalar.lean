
/-!
# Scalars

Models are computed in an arithmetic that is a parameter of the library: double precision numbers
when a model is run, and any arithmetic with the same operations when it is reasoned about. A
scalar may be infinite or undefined, so comparisons are Boolean functions, and an order is not
assumed.
-/
namespace LinearModel

/-- The operations that a model needs of its numbers. -/
class Scalar (K : Type) extends Add K, Sub K, Mul K, Div K, Neg K where
  /-- The scalar nearest to a whole number. -/
  ofInt : Int → K
  /-- The scalar nearest to `m · 10 ^ e`. -/
  ofDecimal : Nat → Int → K
  infinity : K
  undefined : K
  /-- The tolerance `10 ^ (-10)` of comparisons. -/
  epsilon : K
  /-- Equality of numbers. The undefined number equals nothing. -/
  eq : K → K → Bool
  lt : K → K → Bool
  le : K → K → Bool
  /-- The exact value of a finite scalar. -/
  toRat? : K → Option Rat
  /-- The text of a scalar in messages and listings. -/
  text : K → String
  /-- The text of a scalar in an exchange file. -/
  exchangeText : K → String

namespace Scalar

variable {K : Type} [Scalar K]

def zero : K := ofInt 0

def one : K := ofInt 1

def abs (x : K) : K := if lt x zero then -x else x

/-- A scalar that is neither infinite nor undefined. -/
def isFinite (x : K) : Bool := (toRat? x).isSome

/-- A scalar at either end of the line. -/
def isInfinite (x : K) : Bool := eq x infinity || eq x (-infinity)

/-- Truth values are the numbers zero and one. -/
def ofBool (b : Bool) : K := if b then one else zero

/-- A number counts as true when it is one, up to the tolerance. -/
def isTrue (x : K) : Bool := lt (abs (x - one)) epsilon

/-- A number counts as zero up to the tolerance. -/
def isZero (x : K) : Bool := lt (abs x) epsilon

/-- The whole number that a scalar is, if it is one. -/
def toInt? (x : K) : Option Int :=
  match toRat? x with
  | some q => if q.den = 1 then some q.num else none
  | none => none

/-- A whole number as a scalar, if it lies within the range of scalars. -/
def ofInt? (i : Int) : Option K :=
  let x : K := ofInt i
  if isFinite x then some x else none

/-- Whether a whole number lies below a scalar, without rounding either. -/
def intLt (i : Int) (x : K) : Bool :=
  match toRat? x with
  | some q => (i : Rat) < q
  | none => eq x infinity

/-- Whether a whole number lies above a scalar, without rounding either. -/
def intGt (i : Int) (x : K) : Bool :=
  match toRat? x with
  | some q => q < (i : Rat)
  | none => eq x (-infinity)

/-- Whether a whole number is a scalar, without rounding either. -/
def intEq (i : Int) (x : K) : Bool := toInt? x == some i

/-- The larger of two scalars. The first is kept unless the second is known to be larger. -/
def larger (x y : K) : K := if lt x y then y else x

/-- The smaller of two scalars. The first is kept unless the second is known to be smaller. -/
def smaller (x y : K) : K := if lt y x then y else x

end Scalar

end LinearModel
