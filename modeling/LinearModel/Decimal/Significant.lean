import LinearModel.Decimal.Binary64
import LinearModel.Decimal.Layout

/-!
# Significant digits

Exchange files write numbers rounded to twelve significant digits, without trailing zeros.
-/
namespace LinearModel.Decimal

/-- A positive ratio rounded to `n` significant digits. -/
def significant (n num den : Nat) : Written :=
  let k := magnitude num den - ((n : Int) - 1)
  let (s, t) := scale 10 num den (-k)
  Written.ofScaled (divRound s t) k

/-- The layout of a number in an exchange file. -/
def exchangeLayout : Layout := ⟨-4, 12, false⟩

/-- A double by its twelve significant digits. -/
def significantText (x : Float) : String :=
  if x.isNaN then "nan"
  else
    let sign := if Binary64.isNegative x.toBits then "-" else ""
    match Binary64.decode x.toBits with
    | none => sign ++ "inf"
    | some y =>
      let (num, den) := y.ratio
      let body :=
        if y.mantissa = 0 then exchangeLayout.writeZero
        else exchangeLayout.write (significant 12 num den)
      sign ++ String.ofList body

end LinearModel.Decimal
