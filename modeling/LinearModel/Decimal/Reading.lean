import LinearModel.Scalar
import LinearModel.Text.Blank
import LinearModel.Text.Digit

/-!
# Reading numbers

Text is read as a number when, apart from blanks around it, it is a sign and digits, in the
decimal case also a point, an exponent, or one of the words for infinity and for the undefined
number. Digits of every script count, and a single underscore may stand between two digits.
-/
namespace LinearModel.Decimal

open Text

/-- Blanks that may stand around a number. The four information separators may not. -/
def isNumberBlank (c : Char) : Bool :=
  isBlank c && !(0x1c ≤ c.toNat && c.toNat ≤ 0x1f)

/-- A text without the blanks that may stand around a number. -/
def trimNumber (cs : List Char) : List Char :=
  ((cs.dropWhile isNumberBlank).reverse.dropWhile isNumberBlank).reverse

/-- A leading sign, and the text after it. -/
def scanSign : List Char → Bool × List Char
  | '-' :: cs => (true, cs)
  | '+' :: cs => (false, cs)
  | cs => (false, cs)

def opensWithDigit : List Char → Bool
  | [] => false
  | c :: _ => isDecimalDigit c

/-- The digits at the front of a text, and the text after them. -/
def scanDigits : List Char → List Nat × List Char
  | [] => ([], [])
  | c :: '_' :: rest =>
    match digitValue? c with
    | none => ([], c :: '_' :: rest)
    | some d =>
      if opensWithDigit rest then
        let (ds, after) := scanDigits rest
        (d :: ds, after)
      else ([d], '_' :: rest)
  | c :: cs =>
    match digitValue? c with
    | none => ([], c :: cs)
    | some d =>
      let (ds, after) := scanDigits cs
      (d :: ds, after)

/-- The number that a list of digits spells. -/
def ofDigits (ds : List Nat) : Nat := ds.foldl (fun n d => 10 * n + d) 0

/-- The most digits that a whole number may be read from. -/
def maxDigits : Nat := 4300

def readInt? (cs : List Char) : Option Int :=
  let (negative, cs) := scanSign (trimNumber cs)
  match scanDigits cs with
  | ([], _) => none
  | (ds, []) =>
    if maxDigits < ds.length then none
    else some (if negative then -(ofDigits ds : Int) else (ofDigits ds : Int))
  | (_, _ :: _) => none

/-- The exponent at the front of a text, if there is one, and the text after it. -/
def scanExponent? : List Char → Option (Int × List Char)
  | c :: cs =>
    if c = 'e' || c = 'E' then
      let (negative, cs) := scanSign cs
      match scanDigits cs with
      | ([], _) => none
      | (ds, rest) => some (if negative then -(ofDigits ds : Int) else (ofDigits ds : Int), rest)
    else some (0, c :: cs)
  | [] => some (0, [])

/-- The digits after a point at the front of a text, if there is one, and the text after them. -/
def scanFraction : List Char → List Nat × List Char
  | '.' :: cs => scanDigits cs
  | cs => ([], cs)

variable {K : Type} [Scalar K]

/-- Read an unsigned decimal. -/
def readMagnitude? (cs : List Char) : Option K :=
  let word := cs.map Char.toLower
  if word = "inf".toList || word = "infinity".toList then some Scalar.infinity
  else if word = "nan".toList then some Scalar.undefined
  else
    let (whole, rest) := scanDigits cs
    let (fraction, rest) := scanFraction rest
    if whole.isEmpty && fraction.isEmpty then none
    else
      match scanExponent? rest with
      | some (e, []) =>
        some (Scalar.ofDecimal (ofDigits (whole ++ fraction)) (e - fraction.length))
      | _ => none

def readReal? (cs : List Char) : Option K :=
  let (negative, cs) := scanSign (trimNumber cs)
  (readMagnitude? cs).map fun x => if negative then -x else x

end LinearModel.Decimal
