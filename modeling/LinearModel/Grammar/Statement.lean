import LinearModel.Grammar.Declaration
import LinearModel.Script
import LinearModel.Script.Distribution

/-!
# Grammar of statements

The first token of a statement says what kind of statement it is. What a statement declares is
entered into the registry as soon as it has been read.
-/
namespace LinearModel

open LinearModel.Parser
open LinearModel.Reading

variable {K : Type} [Scalar K]

/-- Whether a word opens a statement that is ignored. -/
def isIgnoredWord (s : String) : Bool := ["assert", "execute", "using", "main"].contains s

def isVariableWord (s : String) : Bool := ["dvar", "var"].contains s

/-- Whether a word is a type that parameters may have without a declaration. -/
def isParameterType (s : String) : Bool := ["int", "float", "string", "bool"].contains s

/-- Whether a word opens a declaration or a statement that is ignored. -/
def isDeclarationWord (r : Registry K) (s : String) : Bool :=
  ["range", "tuple", "dexpr"].contains s || isVariableWord s || isIgnoredWord s
    || isParameterType s || r.schemas.contains s

/-- Whether a statement that starts with a token states constraints or an objective. -/
def opensModelStatement (r : Registry K) (t : Token K) : Bool :=
  !t.isOperator "\x7b" && !(t.isIdentifier && isDeclarationWord r t.literal)

namespace Grammar

/-- A statement that declares an entity. -/
def declaration (text : String) (entity : Reading K (Entity K)) : Reading K (Statement K) := do
  let e ← entity
  ofRun do
    let r ← Run.ofExcept ((← Run.registry).declare e)
    Run.modifyRegistry fun _ => r
    return .declaration text e

/-- A statement that is ignored, with a warning. -/
def ignoredStatement (text : String) : Reading K (Statement K) := do
  ofRun (Run.warn ("OPL parser ignored the statement '" ++ text ++ "'"))
  modify Cursor.atEnd
  return .ignored text

/-- A statement that opens with a word. -/
def wordStatement (g : Grammar K) (r : Registry K) (text word : String) :
    Reading K (Statement K) :=
  if isIgnoredWord word then ignoredStatement text
  else if word == "range" then declaration text (ofParser g.rangeDeclaration)
  else if word == "tuple" then declaration text (ofParser (g.schemaDeclaration r))
  else if isVariableWord word then declaration text (ofParser g.variableDeclaration)
  else if word == "dexpr" then declaration text (ofParser g.dexprDeclaration)
  else if isParameterType word then declaration text g.parameterDeclaration
  else
    match r.schemas.find? word, Sense.ofWord? word with
    | some s, _ => declaration text (g.recordDeclaration s)
    | none, some sense => do return .goal (← ofParser (g.goal sense))
    | none, none => do return .rule (← ofParser (g.rule r g.size))

def statement (g : Grammar K) (r : Registry K) (text : String) : Reading K (Statement K) := do
  let t ← ofParser here
  if t.isIdentifier then g.wordStatement r text t.literal
  else if t.isOperator "\x7b" then declaration text (g.setDeclaration r)
  else return .rule (← ofParser (g.rule r g.size))

end Grammar

/-- Read a statement that is all of a text, but for a semicolon at its end. -/
def readStatement (text : String) : Run K (Statement K) := do
  let c ← Run.ofExcept (Cursor.ofText text)
  let r ← Run.registry
  let (s, c) ← (c.grammar r).statement r text c
  let c := if c.here.isOperator ";" then c.next else c
  if c.here.isStop then return s else Run.fail (.trailingToken c.here.literal)

/-- The text of a statement with its sums written out, if it states constraints or an objective. -/
def writtenOut (text : String) : Run K String := do
  let c ← Run.ofExcept (Cursor.ofText text)
  let r ← Run.registry
  if opensModelStatement r c.here then
    return String.ofList (← Run.ofExcept (Script.expandText r text.toList))
  else return text

/-- Read a statement, and enter what it declares. With `textual`, sums over known domains are
written out before the statement is read. -/
def parseStatement (textual : Bool) (text : String) : Run K (Statement K) := do
  let text := String.ofList (Text.trim text.toList)
  let text ← if textual then Run.mapFailure (·.inStatement text) (writtenOut text) else pure text
  Run.mapFailure (·.inStatement text) (readStatement text)

end LinearModel
