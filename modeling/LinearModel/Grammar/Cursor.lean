import LinearModel.Token.Lexer

/-!
# Cursors

A statement is read from left to right. The cursor holds the token at hand, the tokens after it,
and the symbols of the iterators in scope. It never moves past the token that marks the end.
-/
namespace LinearModel

/-- A position in the tokens of a statement. The innermost scope comes first. -/
structure Cursor (K : Type) where
  here : Token K
  rest : List (Token K)
  scopes : List (List String)
  text : List Char

namespace Cursor

variable {K : Type}

/-- The token a number of places ahead. Beyond the end it is the last token. -/
def ahead (c : Cursor K) (n : Nat) : Token K := (c.here :: c.rest).getD n (c.rest.getLastD c.here)

def next (c : Cursor K) : Cursor K :=
  match c.rest with
  | [] => c
  | t :: ts => { c with here := t, rest := ts }

def atEnd (c : Cursor K) : Cursor K := { c with here := c.rest.getLastD c.here, rest := [] }

def size (c : Cursor K) : Nat := c.rest.length + 1

/-- Whether a symbol is that of an iterator in scope. -/
def isIterator (c : Cursor K) (symbol : String) : Bool := c.scopes.any (·.contains symbol)

/-- The cursor at the start of a text. -/
def ofText [Scalar K] (text : String) : Except (Cause K) (Cursor K) := do
  match ← tokenize text with
  | [] => return { here := ⟨.stop, "", 0⟩, rest := [], scopes := [], text := text.toList }
  | t :: ts => return { here := t, rest := ts, scopes := [], text := text.toList }

end Cursor

/-- A step that reads something at a cursor. -/
abbrev Parser (K : Type) := StateT (Cursor K) (Except (Cause K))

namespace Parser

variable {K : Type} {α : Type}

def fail (c : Cause K) : Parser K α := throw c

/-- A computation that reads nothing. -/
def ofExcept (x : Except (Cause K) α) : Parser K α := fun c => x.map (·, c)

def here : Parser K (Token K) := return (← get).here

def ahead (n : Nat) : Parser K (Token K) := return (← get).ahead n

def advance : Parser K Unit := modify Cursor.next

/-- Move on if the token at hand is a given operator or word, and say whether it was. -/
def accept (s : String) : Parser K Bool := do
  let t ← here
  if (t.isAnyOperator || t.isIdentifier) && t.literal == s then
    advance
    return true
  else return false

/-- Require that the token at hand is a given one. -/
def require (s : String) : Parser K Unit := do
  let t ← here
  if t.literal != s then fail (.unexpectedToken t.literal s)

/-- Move on past a given token. -/
def expect (s : String) : Parser K Unit := do
  require s
  advance

def identifier : Parser K String := do
  let t ← here
  if t.isIdentifier then
    advance
    return t.literal
  else fail (.expectedIdentifier t.literal)

def openScope (symbols : List String) : Parser K Unit :=
  modify fun c => { c with scopes := symbols :: c.scopes }

def closeScope : Parser K Unit := modify fun c => { c with scopes := c.scopes.tail }

/-- Add an iterator to the innermost scope. -/
def bring (symbol : String) : Parser K Unit :=
  modify fun c =>
    match c.scopes with
    | [] => c
    | s :: ss => { c with scopes := (s ++ [symbol]) :: ss }

/-- One or more items with a separator between them, at most `n` of them. -/
def separated (separator : String) (item : Parser K α) : Nat → Parser K (List α)
  | 0 => fail .endless
  | n + 1 => do
    let a ← item
    if ← accept separator then return a :: (← separated separator item n) else return [a]

/-- Items that are separated by commas, in square brackets that may be repeated. -/
def bracketGroups (size : Nat) (item : Parser K α) : Nat → Parser K (List α)
  | 0 => fail .endless
  | n + 1 => do
    if ← accept "[" then
      let group ← separated "," item size
      expect "]"
      return group ++ (← bracketGroups size item n)
    else return []

/-- The text from a token to the one at hand, without the blanks around it. -/
def textSince (start : Token K) : Parser K String := do
  let c ← get
  let slice := (c.text.drop start.position).take (c.here.position - start.position)
  return String.ofList (Text.trim slice)

end Parser

end LinearModel
