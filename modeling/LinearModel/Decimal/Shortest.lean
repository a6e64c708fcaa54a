import LinearModel.Decimal.Binary64
import LinearModel.Decimal.Layout

/-!
# Shortest digits

Every double stands for an interval of reals that round to it. Its shortest digits are those of a
decimal in that interval with as few digits as possible, and of these the nearest to the double.
For each number of digits only the two neighbours of the double on that decimal grid need a test.
-/
namespace LinearModel.Decimal

/-- The decimal with `n` digits that reads back as the double, if there is one. The interval is
kept in quarters of a unit in the last place: its lower end is half as far away when doubles lie
twice as dense below, and its ends belong to it when the mantissa is even. -/
def shortestWith? (x : Binary64.Finite) (top : Int) (n : Nat) : Option Written :=
  let k := top - ((n : Int) - 1)
  let (up, down) := scale 2 1 1 (x.exponent - 2)
  let (s, t) := scale 10 up down (-k)
  let centre := 4 * x.mantissa * s
  let low := (4 * x.mantissa - (if x.isLeast then 1 else 2)) * s
  let high := (4 * x.mantissa + 2) * s
  let closed := x.mantissa % 2 = 0
  let a := centre / t
  let below := low < a * t || (closed && low = a * t)
  let above := (a + 1) * t < high || (closed && (a + 1) * t = high)
  let pick (b : Nat) := some (Written.ofScaled b k)
  if below && above then
    if 2 * centre < (2 * a + 1) * t then pick a
    else if (2 * a + 1) * t < 2 * centre then pick (a + 1)
    else if a % 2 = 0 then pick a
    else pick (a + 1)
  else if below then pick a
  else if above then pick (a + 1)
  else none

/-- The shortest digits of a positive double. Seventeen digits always suffice. -/
def shortest (x : Binary64.Finite) : Written :=
  let (num, den) := x.ratio
  let top := magnitude num den
  match (List.range 17).findSome? fun i => shortestWith? x top (i + 1) with
  | some w => w
  | none => ⟨[], 0⟩

/-- The layout of a number in messages and listings. -/
def plainLayout : Layout := ⟨-4, 16, true⟩

/-- A double by its shortest digits. -/
def shortestText (x : Float) : String :=
  if x.isNaN then "nan"
  else
    let sign := if Binary64.isNegative x.toBits then "-" else ""
    match Binary64.decode x.toBits with
    | none => sign ++ "inf"
    | some y =>
      let body := if y.mantissa = 0 then plainLayout.writeZero else plainLayout.write (shortest y)
      sign ++ String.ofList body

end LinearModel.Decimal
