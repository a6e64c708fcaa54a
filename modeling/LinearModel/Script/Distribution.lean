import LinearModel.Decimal.Reading
import LinearModel.Script.Summation

/-!
# Distribution in text

A number that multiplies a bracketed addition is distributed over its terms, when the product is a
whole term. What results is looked at again, up to a fixed number of products in one statement.
-/
namespace LinearModel.Script

open Text

/-- The length of the digits at the front of a text. -/
def decimalCount (cs : List Char) : Nat := (cs.takeWhile isDecimalDigit).length

/-- The length of the point and digits at the front of a text, if there are any. -/
def decimalFraction : List Char → Nat
  | '.' :: cs => if decimalCount cs = 0 then 0 else decimalCount cs + 1
  | _ => 0

/-- The length of the exponent at the front of a text, if there is one. -/
def decimalExponent : List Char → Nat
  | c :: cs =>
    if c = 'e' || c = 'E' then
      let sign := if cs.head? == some '+' || cs.head? == some '-' then 1 else 0
      let n := decimalCount (cs.drop sign)
      if n = 0 then 0 else n + sign + 1
    else 0
  | [] => 0

/-- The length of the number at the front of a text. A text that starts with no digit holds
none. -/
def coefficientLength (cs : List Char) : Nat :=
  let whole := decimalCount cs
  if whole = 0 then 0
  else
    let fraction := decimalFraction (cs.drop whole)
    whole + fraction + decimalExponent (cs.drop (whole + fraction))

/-- A number that multiplies a bracket: the text before it, the number, the number with what
follows up to the bracket, and the text inside and after the bracket. -/
structure FoundProduct where
  before : List Char
  coefficient : List Char
  head : List Char
  after : List Char

/-- A number that multiplies a bracket at the front of a text. -/
def product? (before cs : List Char) : Option FoundProduct :=
  let n := coefficientLength cs
  if n = 0 || joinsWord before.head? then none
  else do
    let rest ← skip? '*' (trimStart (cs.drop n))
    let after ← skip? '(' (trimStart rest)
    return { before, coefficient := cs.take n, head := cs.take (cs.length - after.length), after }

/-- The next number that multiplies a bracket. -/
def nextProduct? (before : List Char) : List Char → Option FoundProduct
  | [] => none
  | c :: cs =>
    match product? before (c :: cs) with
    | some f => some f
    | none => nextProduct? (c :: before) cs

/-- What stands inside a round bracket whose opening has been read, and the text after it. -/
def splitBracket? (depth : Nat) : List Char → Option (List Char × List Char)
  | [] => none
  | c :: cs =>
    if c = ')' && depth = 0 then some ([], cs)
    else
      let depth := if c = '(' then depth + 1 else if c = ')' then depth - 1 else depth
      (splitBracket? depth cs).map fun (inside, after) => (c :: inside, after)

/-- A signed term of an addition. -/
structure SignedTerm where
  isNegative : Bool
  body : List Char

/-- The signed terms of an addition, the first with a given sign. -/
def signedTerms? (isNegative : Bool) (cs : List Char) : Option (List SignedTerm) :=
  if h : cs = [] then some []
  else
    have : 0 < cs.length := List.length_pos_iff.mpr h
    let n := termLength cs
    let body := trim (cs.take n)
    if body.isEmpty then none
    else
      match (cs.drop n).head? with
      | none => some [⟨isNegative, body⟩]
      | some c =>
        if c = '+' || c = '-' then
          (signedTerms? (c == '-') (cs.drop (n + 1))).map (⟨isNegative, body⟩ :: ·)
        else none
termination_by cs.length
decreasing_by
  simp only [List.length_drop]
  omega

/-- Move the signs at the front of a term into its sign. -/
def absorbSigns (isNegative : Bool) : List Char → SignedTerm
  | [] => ⟨isNegative, []⟩
  | c :: cs =>
    if c = '-' then absorbSigns (!isNegative) cs
    else if c = '+' || isBlank c then absorbSigns isNegative cs
    else ⟨isNegative, c :: cs⟩

/-- The terms as one text, each with the coefficient in front unless it is one. -/
def joinTerms (isUnity : Bool) (coefficient : List Char) (ts : List SignedTerm) : List Char :=
  let body (t : SignedTerm) : List Char := if isUnity then t.body else coefficient ++ '*' :: t.body
  match ts.map fun t => absorbSigns t.isNegative t.body with
  | [] => []
  | t :: ts =>
    (if t.isNegative then '-' :: body t else body t)
      ++ (ts.map fun t => (if t.isNegative then " - " else " + ").toList ++ body t).flatten

/-- The characters that a whole term may follow. -/
def termOpenings : List Char := "+-([\x7b,:<>=".toList

/-- The characters that bind what stands before them. -/
def tighterFollowers : List Char := "*/[.^".toList

/-- Whether a number counts as one. -/
def isUnity (K : Type) [Scalar K] (coefficient : List Char) : Bool :=
  match Decimal.readReal? (K := K) coefficient with
  | some x => Scalar.eq x Scalar.one
  | none => false

/-- Distribute a coefficient: what the product becomes, and the text after it. A product that is no
whole term, or whose bracket holds no addition, is not distributed. -/
def distributeOne? (K : Type) [Scalar K] (f : FoundProduct) : Option (List Char × List Char) := do
  let (inside, after) ← splitBracket? 0 f.after
  let previous := (trimStart f.before).head?
  if !previous.all termOpenings.contains
      || (trimStart after).head?.any tighterFollowers.contains then
    none
  else
    let terms ← signedTerms? false inside
    if terms.isEmpty then none
    else
      -- a minus before the product counts for all of its terms
      let joined := joinTerms (isUnity K f.coefficient) f.coefficient terms
      return (if previous == some '-' then bracketed joined else joined, after)

/-- The most products that are looked at in one statement. -/
def maxProducts : Nat := 1000

/-- Distribute the coefficients of a text, with a budget. -/
def distributeFrom (K : Type) [Scalar K] (budget : Nat) (before cs : List Char) : List Char :=
  match budget with
  | 0 => before.reverse ++ cs
  | n + 1 =>
    match nextProduct? before cs with
    | none => before.reverse ++ cs
    | some f =>
      match distributeOne? K f with
      -- what a product becomes may hold further products
      | some (distribution, after) => distributeFrom K n f.before (distribution ++ after)
      | none => distributeFrom K n (f.head.reverse ++ f.before) f.after

def distribute (K : Type) [Scalar K] (cs : List Char) : List Char :=
  distributeFrom K maxProducts [] cs

/-- Write out the sums of a text and distribute its coefficients. -/
def expandText {K : Type} [Scalar K] (r : Registry K) (cs : List Char) :
    Except (Cause K) (List Char) :=
  return distribute K (← expandSums r cs)

end LinearModel.Script
