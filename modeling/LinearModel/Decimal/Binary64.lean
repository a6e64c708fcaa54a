import LinearModel.Decimal.Rounding

/-!
# Double precision

A double precision number is a sign, an exponent and a mantissa. This module decodes the pattern
of a double into its exact value `m · 2 ^ q`, and finds the pattern of the double nearest to an
exact ratio, with ties to the even mantissa, gradual underflow and overflow to infinity.
-/
namespace LinearModel.Decimal.Binary64

/-- The pattern of positive infinity. -/
def infinityBits : Nat := 0x7ff0000000000000

/-- The pattern of the double nearest to the ratio `num / den`. The exponent is chosen so that the
mantissa has 53 binary digits, or fewer at the lower end of the range. A mantissa that rounds up
to `2 ^ 53` carries into the exponent field by itself. -/
def nearestBits (num den : Nat) : Nat :=
  if num = 0 then 0
  else
    let e₁ : Int := (num.log2 : Int) - (den.log2 : Int) - 53
    let (n₁, d₁) := scale 2 num den (-e₁)
    let e := max (if n₁ / d₁ < Nat.pow 2 53 then e₁ else e₁ + 1) (-1074)
    let (n, d) := scale 2 num den (-e)
    min ((e + 1074).toNat * Nat.pow 2 52 + divRound n d) infinityBits

/-- A finite positive double as `m · 2 ^ q`, with the mark of a mantissa at the lower end of its
binade, below which doubles lie twice as dense. -/
structure Finite where
  mantissa : Nat
  exponent : Int
  isLeast : Bool

/-- The exact value of a double without its sign. Infinities and not-a-numbers have none. -/
def decode (bits : UInt64) : Option Finite :=
  let field : Nat := (bits.toNat / Nat.pow 2 52) % Nat.pow 2 11
  let fraction : Nat := bits.toNat % Nat.pow 2 52
  if field = 2047 then none
  else if field = 0 then some ⟨fraction, -1074, false⟩
  else some ⟨Nat.pow 2 52 + fraction, (field : Int) - 1075, fraction = 0 && field ≠ 1⟩

def isNegative (bits : UInt64) : Bool := Nat.pow 2 63 ≤ bits.toNat

/-- The magnitude of a finite double as a ratio. -/
def Finite.ratio (x : Finite) : Nat × Nat := scale 2 x.mantissa 1 x.exponent

/-- The exact value of a finite double. -/
def toRat? (x : Float) : Option Rat :=
  (decode x.toBits).map fun y =>
    let (n, d) := y.ratio
    mkRat (if isNegative x.toBits then -(n : Int) else (n : Int)) d

/-- The double nearest to `num / den`. -/
def ofRatio (num den : Nat) : Float :=
  Float.ofBits (UInt64.ofNat (nearestBits num den))

/-- The double nearest to a whole number. Numbers of at most 53 binary digits are exact. -/
def ofInt (i : Int) : Float :=
  if i.natAbs < Nat.pow 2 53 then Float.ofInt i
  else
    let x := ofRatio i.natAbs 1
    if i < 0 then -x else x

/-- The double nearest to `m · 10 ^ e`. Decimals far outside the range of a double are decided by
their number of digits alone. -/
def ofDecimal (m : Nat) (e : Int) : Float :=
  if m = 0 then 0
  else
    let size := e + (Nat.toDigits 10 m).length
    if 400 < size then ofRatio (Nat.pow 2 1024) 1
    else if size < -400 then 0
    else
      let (n, d) := scale 10 m 1 e
      ofRatio n d

end LinearModel.Decimal.Binary64
