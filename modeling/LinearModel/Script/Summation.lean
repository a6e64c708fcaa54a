import LinearModel.Registry
import LinearModel.Script.Term

/-!
# Sums in text

A sum with one iterator over a domain whose elements are fixed by its declaration is written out
as an addition of one copy of its term per element, before the statement is read. Sums are written
out from the outside in, and what a sum is written out to is looked at again. All other sums stay
as they are.

The text is held as what is settled, last character first, and what is still to be looked at.
-/
namespace LinearModel.Script

open Text

/-- The head of a sum at the front of a text: the symbol it binds, its domain, and its length. -/
structure SumHead where
  symbol : List Char
  domain : List Char
  length : Nat

/-- A word at the front of a text, and the rest. Its first character is an ASCII letter or an
underscore. -/
def word? (cs : List Char) : Option (List Char × List Char) :=
  match cs with
  | c :: _ =>
    if isAsciiWordStart c then some (cs.takeWhile isWordChar, cs.dropWhile isWordChar) else none
  | [] => none

/-- The rest of a text after a character. -/
def skip? (c : Char) : List Char → Option (List Char)
  | d :: cs => if c = d then some cs else none
  | [] => none

/-- The rest of a text after at least one blank and any further ones. -/
def skipBlanks? : List Char → Option (List Char)
  | c :: cs => if isBlank c then some (trimStart cs) else none
  | [] => none

/-- The head of a sum at the front of a text. -/
def sumHead? (cs : List Char) : Option SumHead := do
  let rest ← skip? 's' cs >>= skip? 'u' >>= skip? 'm'
  let rest ← skip? '(' (trimStart rest)
  let (symbol, rest) ← word? (trimStart rest)
  let rest ← skipBlanks? rest >>= skip? 'i' >>= skip? 'n' >>= skipBlanks?
  let (domain, rest) ← word? rest
  let rest ← skip? ')' (trimStart rest)
  return { symbol, domain, length := cs.length - rest.length }

/-- The length of a text in double quotes at the front of a text. A backslash takes the next
character with it, unless that is a line break. -/
def quotedLength? : List Char → Option Nat
  | '"' :: cs => closing cs |>.map (· + 1)
  | _ => none
where
  /-- The length of a text up to its closing quote. -/
  closing : List Char → Option Nat
    | [] => none
    | '\\' :: c :: cs => if c = '\n' then none else (closing cs).map (· + 2)
    | '\\' :: [] => none
    | '"' :: _ => some 1
    | _ :: cs => (closing cs).map (· + 1)

/-- Whether a symbol stands at the front of a text as a whole word. -/
def startsWithSymbol (symbol cs : List Char) : Bool :=
  symbol.isPrefixOf cs && !((cs.drop symbol.length).head?.any isWordChar)

/-- Replace a symbol where it stands as a whole word outside quotes. The character before is
`last`, and the first `skip` characters are passed over: they are copied if `copies`. -/
def replaceFrom (symbol replacement : List Char) (last : Option Char) (skip : Nat)
    (copies : Bool) : List Char → List Char
  | [] => []
  | c :: cs =>
    match skip with
    | n + 1 =>
      let rest := replaceFrom symbol replacement (some c) n copies cs
      if copies then c :: rest else rest
    | 0 =>
      match quotedLength? (c :: cs) with
      | some n => c :: replaceFrom symbol replacement (some c) (n - 1) true cs
      | none =>
        if !joinsWord last && startsWithSymbol symbol (c :: cs) then
          replacement ++ replaceFrom symbol replacement (some c) (symbol.length - 1) false cs
        else c :: replaceFrom symbol replacement (some c) 0 true cs

/-- Replace a symbol where it stands as a whole word outside quotes. -/
def replaceSymbol (symbol replacement cs : List Char) : List Char :=
  replaceFrom symbol replacement none 0 true cs

def bracketed (cs : List Char) : List Char := '(' :: cs ++ [')']

variable {K : Type} [Scalar K]

/-- The text that an element is replaced by: a negative number is bracketed. -/
def elementText (v : Value K) : List Char :=
  let cs := v.literal.toList
  if cs.head? == some '-' then bracketed cs else cs

/-- The elements of a domain, if its declaration fixes them. -/
def fixedElements? (r : Registry K) (symbol : String) : Option (List (Value K)) :=
  match r.domain? symbol with
  | some (.index d) => some (intRange d.first d.last)
  | some (.primitive d) => if d.isExternal then none else some d.elements
  | _ => none

/-- An addition of terms. An addition of several is bracketed, and one of none is zero. -/
def additionText : List (List Char) → List Char
  | [] => ['0']
  | [t] => t
  | ts => bracketed (" + ".toList.intercalate ts)

/-- A sum that is to be written out, and the text around it. -/
structure FoundSum (K : Type) where
  before : List Char
  symbol : List Char
  elements : List (Value K)
  head : List Char
  after : List Char

/-- The next sum that is to be written out. -/
def nextSum? (r : Registry K) (before : List Char) : List Char → Option (FoundSum K)
  | [] => none
  | c :: cs =>
    let found : Option (FoundSum K) :=
      if joinsWord before.head? then none
      else do
        let head ← sumHead? (c :: cs)
        let elements ← fixedElements? r (String.ofList head.domain)
        return { before, symbol := head.symbol, elements, head := (c :: cs).take head.length,
                 after := (c :: cs).drop head.length }
    match found with
    | some f => some f
    | none => nextSum? r (c :: before) cs

/-- Write out a sum: what it becomes, and the text after it. -/
def writeOut (f : FoundSum K) : Except (Cause K) (List Char × List Char) :=
  let term := trimEnd (f.after.take (termLength f.after))
  let body := trimStart term
  if body.isEmpty then .error (.sumWithoutTerm (String.ofList f.head))
  else
    let terms := f.elements.map fun v => replaceSymbol f.symbol (elementText v) body
    .ok (additionText terms, f.after.drop term.length)

/-- The most sums that are written out in one statement. -/
def maxExpansions : Nat := 10000

/-- Write out the sums of a text, with a budget. -/
def expandSumsFrom (r : Registry K) : Nat → List Char → List Char → Except (Cause K) (List Char)
  | budget, before, cs =>
    match nextSum? r before cs with
    | none => .ok (before.reverse ++ cs)
    | some f =>
      match budget with
      | 0 => .error (.tooManyExpansions maxExpansions)
      | n + 1 => do
        let (expansion, after) ← writeOut f
        -- the expansion is read again, since a sum may hold others
        expandSumsFrom r n f.before (expansion ++ after)

def expandSums (r : Registry K) (cs : List Char) : Except (Cause K) (List Char) :=
  expandSumsFrom r maxExpansions [] cs

end LinearModel.Script
