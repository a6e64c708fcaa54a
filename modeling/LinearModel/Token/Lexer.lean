import LinearModel.Token
import LinearModel.Decimal.Reading
import LinearModel.Text.Word

/-!
# Lexer

The first character of a token decides its class: a quote opens a text, a digit a number, a letter
or an underscore an identifier; anything else must be an operator, of which the longest counts.
Blanks separate tokens and are dropped.

The lexer walks through the text character by character. A token found at one character is as long
as its class says, and the characters it covers are passed over.
-/
namespace LinearModel

namespace Lexer

open Text

variable {K : Type} [Scalar K]

/-- The operators. Those that extend another come before it. -/
def operators : List String :=
  ["...", "..", "<=", ">=", "==", "!=", "&&", "||", "<", ">", "=", "+", "-", "*", "/", "(", ")",
    "[", "]", "\x7b", "\x7d", ",", ";", ":", "|", ".", "!"]

def operatorAt? (cs : List Char) : Option String :=
  operators.find? fun s => s.toList.isPrefixOf cs

/-- The operator that a single sign is another spelling of. -/
def alias? : Char → Option String
  | '≤' => some "<="
  | '≥' => some ">="
  | _ => none

/-- The content of a text after its opening quote, and how many characters it takes including the
closing quote. A backslash takes the next character as it is. -/
def scanText? : List Char → Option (List Char × Nat)
  | [] => none
  | '\\' :: c :: cs => (scanText? cs).map fun (content, n) => (c :: content, n + 2)
  | '"' :: _ => some ([], 1)
  | c :: cs => (scanText? cs).map fun (content, n) => (c :: content, n + 1)

def digitCount (cs : List Char) : Nat := (cs.takeWhile isAnyDigit).length

/-- The length of the fraction at the front of a text, if there is one. A point followed by
another point belongs to a range. -/
def fractionLength : List Char → Nat
  | '.' :: c :: cs =>
    if isAnyDigit c then 1 + digitCount (c :: cs)
    else if c = '.' then 0
    else 1
  | _ => 0

/-- The length of the sign at the front of a text, if there is one. -/
def signLength : List Char → Nat
  | '+' :: _ => 1
  | '-' :: _ => 1
  | _ => 0

/-- The length of the exponent at the front of a text, if there is one. -/
def exponentLength : List Char → Nat
  | c :: cs =>
    if c = 'e' || c = 'E' then
      let n := digitCount (cs.drop (signLength cs))
      if n = 0 then 0 else 1 + signLength cs + n
    else 0
  | [] => 0

/-- The length of the number at the front of a text, and whether it is a decimal. -/
def numberSpan (cs : List Char) : Nat × Bool :=
  let whole := digitCount cs
  let fraction := fractionLength (cs.drop whole)
  let exponent := exponentLength (cs.drop (whole + fraction))
  (whole + fraction + exponent, 0 < fraction || 0 < exponent)

/-- The number that a literal spells. -/
def readNumber (isDecimal : Bool) (cs : List Char) : Except (Cause K) (Number K) :=
  if isDecimal then
    match Decimal.readReal? cs with
    | some x => .ok (.real x)
    | none => .error .badDigits
  else
    match Decimal.readInt? cs with
    | some i => .ok (.int i)
    | none => .error .badDigits

/-- A token without its position, and how many characters it covers. -/
structure Span (K : Type) where
  lexeme : Lexeme K
  literal : String
  length : Nat

/-- The token that starts with a character that is no blank. -/
def spanAt (text : String) (position : Nat) (c : Char) (cs : List Char) :
    Except (Cause K) (Span K) :=
  if c = '"' then
    match scanText? cs with
    | some (content, n) =>
      .ok ⟨.text (String.ofList content), String.ofList (c :: cs.take n), n + 1⟩
    | none => .error (.unterminatedString position text)
  else if isAnyDigit c then do
    let (n, isDecimal) := numberSpan (c :: cs)
    let literal := (c :: cs).take n
    return ⟨.number (← readNumber isDecimal literal), String.ofList literal, n⟩
  else if isWordStart c then
    let word := (c :: cs).takeWhile isWordChar
    .ok ⟨.identifier, String.ofList word, word.length⟩
  else
    match alias? c with
    | some s => .ok ⟨.operator, s, 1⟩
    | none =>
      match operatorAt? (c :: cs) with
      | some s => .ok ⟨.operator, s, s.length⟩
      | none => .error (.unexpectedCharacter c position text)

/-- The tokens from a position on. The first `skip` characters belong to the token before. -/
def scan (text : String) (position skip : Nat) : List Char → Except (Cause K) (List (Token K))
  | [] => .ok [⟨.stop, "", position⟩]
  | c :: cs =>
    match skip with
    | n + 1 => scan text (position + 1) n cs
    | 0 =>
      if isBlank c then scan text (position + 1) 0 cs
      else do
        let t ← spanAt text position c cs
        let ts ← scan text (position + 1) (t.length - 1) cs
        return ⟨t.lexeme, t.literal, position⟩ :: ts

end Lexer

def tokenize {K : Type} [Scalar K] (text : String) : Except (Cause K) (List (Token K)) :=
  Lexer.scan text 0 0 text.toList

end LinearModel
