
/-!
# Rounding

Exact ratios of natural numbers, rounded to the nearest whole number with ties to even, and the
decimal magnitude of a ratio. Reading and writing numbers both rest on these.
-/
namespace LinearModel.Decimal

/-- The whole number nearest to `num / den`. A tie goes to the even neighbour. -/
def divRound (num den : Nat) : Nat :=
  let q := num / den
  let r := num % den
  if 2 * r < den then q
  else if den < 2 * r then q + 1
  else if q % 2 = 0 then q
  else q + 1

/-- Rounding moves a ratio by at most half a unit. -/
theorem divRound_near (num : Nat) {den : Nat} (h : 0 < den) :
    2 * num ≤ (2 * divRound num den + 1) * den ∧ (2 * divRound num den) * den ≤ 2 * num + den := by
  have hdm : den * (num / den) + num % den = num := Nat.div_add_mod num den
  have hr : num % den < den := Nat.mod_lt _ h
  have hmul : num / den * den = den * (num / den) := Nat.mul_comm _ _
  simp only [divRound]
  split
  · constructor <;> simp only [Nat.add_mul, Nat.mul_assoc, hmul] <;> omega
  · split
    · constructor <;> simp only [Nat.add_mul, Nat.mul_add, Nat.mul_assoc, hmul] <;> omega
    · split
      · constructor <;> simp only [Nat.add_mul, Nat.mul_assoc, hmul] <;> omega
      · constructor <;> simp only [Nat.add_mul, Nat.mul_add, Nat.mul_assoc, hmul] <;> omega

/-- The ratio `num / den`, multiplied by `base ^ e`, as a ratio. -/
def scale (base num den : Nat) (e : Int) : Nat × Nat :=
  if 0 ≤ e then (num * Nat.pow base e.toNat, den) else (num, den * Nat.pow base (-e).toNat)

/-- Whether `10 ^ e ≤ num / den`. -/
def reachesPowerOfTen (num den : Nat) (e : Int) : Bool :=
  let (n, d) := scale 10 num den (-e)
  d ≤ n

/-- The exponent `e` with `10 ^ e ≤ num / den < 10 ^ (e + 1)`, for a positive ratio. The first
guess comes from the binary logarithms, and is one off at most. -/
def magnitude (num den : Nat) : Int :=
  let guess := ((num.log2 : Int) - (den.log2 : Int)) * 30103 / 100000
  if reachesPowerOfTen num den (guess + 1) then guess + 1
  else if reachesPowerOfTen num den guess then guess
  else guess - 1

end LinearModel.Decimal
