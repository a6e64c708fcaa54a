import LinearModel.Text.Blank
import LinearModel.Text.Digit
import LinearModel.Text.Word

/-!
# Terms in text

A term ends at a comparison or connective, at a separator, at a bracket that closes an enclosing
group, or at an addition or subtraction. A sign that follows an operator, an opening bracket, the
start of the term or the mark of an exponent belongs to the term.
-/
namespace LinearModel.Script

open Text

/-- The characters that end a term outside brackets. -/
def terminators : List Char := "<>=!;,:|&".toList

/-- The characters after which a sign belongs to what follows it. -/
def signContexts : List Char := "+-*/([\x7b,:<>=!&|".toList

/-- Whether a character, if there is one, cannot stand right before a number or a name. -/
def joinsWord : Option Char → Bool
  | some c => isWordChar c || c == '.'
  | none => false

/-- Whether a text, last character first, ends with the digits of a number that is not part of a
longer word. -/
def endsWithInteger (cs : List Char) : Bool :=
  let rest := cs.dropWhile isDecimalDigit
  rest.length < cs.length && !joinsWord rest.head?

/-- Whether a text, last character first, ends with a number that is not part of a longer word. -/
def endsWithNumber (cs : List Char) : Bool :=
  match cs.dropWhile isDecimalDigit with
  | '.' :: rest => endsWithInteger rest
  | _ => endsWithInteger cs

/-- Whether a text, last character first, ends with a number and the mark of an exponent. A final
line break does not count. -/
def endsWithExponentMark (cs : List Char) : Bool :=
  let marked : List Char → Bool
    | c :: rest => (c == 'e' || c == 'E') && endsWithNumber rest
    | [] => false
  match cs with
  | '\n' :: rest => marked rest
  | cs => marked cs

/-- The length of the term at the front of a text: `seen` are the characters before it that
belong to the term, last one first, `depth` is the number of open brackets, and `last` is the last
character that is no blank. -/
def termLengthFrom (seen : List Char) (depth : Nat) (last : Option Char) : List Char → Nat
  | [] => 0
  | c :: cs =>
    let last' := if isBlank c then last else some c
    if c == '(' || c == '[' || c == '\x7b' then
      termLengthFrom (c :: seen) (depth + 1) last' cs + 1
    else if c == ')' || c == ']' || c == '\x7d' then
      match depth with
      | 0 => 0
      | d + 1 => termLengthFrom (c :: seen) d last' cs + 1
    else if depth = 0 && terminators.contains c then 0
    else if depth = 0 && (c == '+' || c == '-')
        && !(last.all signContexts.contains || endsWithExponentMark seen) then 0
    else termLengthFrom (c :: seen) depth last' cs + 1

def termLength (cs : List Char) : Nat := termLengthFrom [] 0 none cs

/-- The position at which the term that starts at a position ends. -/
def termEnd (text : String) (start : Nat) : Nat :=
  let cs := text.toList
  if cs.length ≤ start then cs.length else start + termLength (cs.drop start)

end LinearModel.Script
