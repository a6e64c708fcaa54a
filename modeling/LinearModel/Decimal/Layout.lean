
/-!
# Layout of a number

A number is written positionally when the exponent of its first digit lies in a window, and with
an exponent mark otherwise. The layouts of this library differ in the window and in whether a
whole number keeps a fractional zero.
-/
namespace LinearModel.Decimal

/-- How a number is laid out. -/
structure Layout where
  /-- The least exponent that is written positionally. -/
  least : Int
  /-- The least exponent above that is written with an exponent mark. -/
  beyond : Int
  /-- Whether a whole number in positional form ends in `.0`. -/
  pointZero : Bool

/-- A positive decimal: its digits, the last of which is not zero, and the exponent of the first. -/
structure Written where
  digits : List Char
  exponent : Int

/-- The decimal `a · 10 ^ k`, without its trailing zeros. -/
def Written.ofScaled (a : Nat) (k : Int) : Written :=
  let ds := Nat.toDigits 10 a
  let kept := (ds.reverse.dropWhile (· == '0')).reverse
  ⟨kept, k + (ds.length : Int) - 1⟩

/-- An exponent mark: a sign and at least two digits. -/
def exponentMark (e : Int) : List Char :=
  let ds := Nat.toDigits 10 e.natAbs
  'e' :: (if e < 0 then '-' else '+') :: (if ds.length < 2 then '0' :: ds else ds)

/-- Write a positive decimal. -/
def Layout.write (l : Layout) (w : Written) : List Char :=
  if l.least ≤ w.exponent && w.exponent < l.beyond then
    if w.exponent < 0 then
      '0' :: '.' :: List.replicate ((-w.exponent).toNat - 1) '0' ++ w.digits
    else
      let whole := w.exponent.toNat + 1
      if w.digits.length ≤ whole then
        w.digits ++ List.replicate (whole - w.digits.length) '0'
          ++ (if l.pointZero then ['.', '0'] else [])
      else
        w.digits.take whole ++ '.' :: w.digits.drop whole
  else
    match w.digits with
    | [] => []
    | d :: [] => d :: exponentMark w.exponent
    | d :: ds => d :: '.' :: ds ++ exponentMark w.exponent

def Layout.writeZero (l : Layout) : List Char :=
  if l.pointZero then ['0', '.', '0'] else ['0']

end LinearModel.Decimal
