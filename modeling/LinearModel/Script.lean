import LinearModel.Script.Comments
import LinearModel.Text.Blank
import LinearModel.Text.Word

/-!
# Scripts

Statements end with a semicolon outside brackets. A statement that opens with one of the block
words and has a body in braces ends with the closing brace. The braces of a block of constraints
are dropped, so that what it holds are statements of their own.
-/
namespace LinearModel.Script

open Text

/-- The words that open a statement with a body in braces. -/
def blockWords : List (List Char) :=
  ["tuple".toList, "forall".toList, "execute".toList, "main".toList]

/-- The text after a given beginning. -/
def after? : List Char → List Char → Option (List Char)
  | [], cs => some cs
  | _ :: _, [] => none
  | p :: ps, c :: cs => if p = c then after? ps cs else none

/-- The text after the words that open a block of constraints. -/
def afterBlockOpening? (cs : List Char) : Option (List Char) :=
  match after? "subject".toList cs with
  | some rest =>
    match rest with
    | c :: _ => if isBlank c then after? "to".toList (trimStart rest) else none
    | [] => none
  | none => after? "constraints".toList cs

/-- Whether a text opens a block of constraints with a brace. -/
def opensConstraints (cs : List Char) : Bool :=
  match afterBlockOpening? cs with
  | some rest => (trimStart rest).head? == some '\x7b'
  | none => false

/-- The word at the front of a text, in ASCII letters at first. -/
def leadingWord (cs : List Char) : List Char :=
  match cs with
  | c :: _ => if isAsciiWordStart c then cs.takeWhile isWordChar else []
  | [] => []

/-- Whether a text is a statement that has a body in braces. -/
def isBlockStatement (cs : List Char) : Bool := blockWords.contains (leadingWord (trim cs))

/-- Where splitting stands: the pending statement, last character first, the depth of braces and
of round brackets, the number of open blocks of constraints, and whether a quote is open. -/
structure SplitState where
  pending : List Char := []
  braces : Int := 0
  brackets : Int := 0
  blocks : Nat := 0
  inText : Bool := false

namespace SplitState

def statement (s : SplitState) : List Char := trim s.pending.reverse

def push (s : SplitState) (c : Char) : SplitState := { s with pending := c :: s.pending }

def clear (s : SplitState) : SplitState := { s with pending := [] }

/-- The pending statement at the front of the statements that follow, unless it is blank. -/
def emit (s : SplitState) (rest : List (List Char)) : List (List Char) :=
  if s.statement.isEmpty then rest else s.statement :: rest

end SplitState

/-- The statements of a text without comments, from a state on. -/
def splitFrom (s : SplitState) : List Char → List (List Char)
  | [] => s.emit []
  | '\\' :: c :: cs =>
    if s.inText then splitFrom ((s.push '\\').push c) cs
    else splitFrom (s.push '\\') (c :: cs)
  | c :: cs =>
    if s.inText then splitFrom { s.push c with inText := c != '"' } cs
    else if c = '"' then splitFrom { s.push c with inText := true } cs
    else if c = '(' then splitFrom { s.push c with brackets := s.brackets + 1 } cs
    else if c = ')' then splitFrom { s.push c with brackets := s.brackets - 1 } cs
    else if c = '\x7b' then
      if s.braces = 0 && opensConstraints (s.push c).statement then
        -- the words that open the block belong to no statement
        splitFrom { s.clear with blocks := s.blocks + 1 } cs
      else splitFrom { s.push c with braces := s.braces + 1 } cs
    else if c = '\x7d' then
      if s.braces = 0 && 0 < s.blocks then
        s.emit (splitFrom { s.clear with blocks := s.blocks - 1 } cs)
      else
        let s' := { s.push c with braces := s.braces - 1 }
        if s'.braces = 0 && s'.brackets = 0 && isBlockStatement s.pending.reverse then
          -- a body ends its statement without a semicolon
          s'.emit (splitFrom s'.clear cs)
        else splitFrom s' cs
    else if c = ';' && s.braces = 0 && s.brackets = 0 then s.emit (splitFrom s.clear cs)
    else splitFrom (s.push c) cs

/-- The statements of a text without comments. -/
def splitStripped (cs : List Char) : List (List Char) := splitFrom {} cs

/-- The statements of a model, without comments and without the blanks around them. -/
def splitStatements (text : String) : List String :=
  (splitStripped (stripComments text.toList)).map String.ofList

end LinearModel.Script
