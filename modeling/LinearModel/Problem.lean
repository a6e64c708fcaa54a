import LinearModel.Data
import LinearModel.Expansion
import LinearModel.Grammar.Statement

/-!
# Problems

A problem collects statements and what they declare. Building it expands its constraints into
equations and its objective into a linear form. A model that fails to build leaves the last one in
place. Adding a statement makes the model out of date.
-/
namespace LinearModel

variable {K : Type} [Scalar K] {α : Type}

/-- The equations and the objective of a problem, and the origins of their variables. -/
structure Model (K : Type) where
  equations : List (Equation K) := []
  objective : Option (Objective K) := none
  origins : Table String (Origin K) := Table.empty

structure Problem (K : Type) where
  symbol : String
  description : String := ""
  registry : Registry K := {}
  statements : List (Statement K) := []
  model : Model K := {}
  /-- Whether the model belongs to the statements. -/
  isBuilt : Bool := false

/-! ## Models -/

/-- The names in a list without those that occur earlier. -/
def firstOccurrences (names : List String) : List String :=
  (names.foldl (fun seen n => if seen.contains n then seen else n :: seen) []).reverse

namespace Model

/-- The model with the contribution of a statement. -/
def extend (m : Model K) : Statement K → Run K (Model K)
  | .rule r => do
    let (equations, origins) ← r.equations
    return { m with equations := m.equations ++ equations
                    origins := m.origins.insertAll origins.toList }
  | .goal g => do
    let (objective, origins) ← g.objective
    return { m with objective := some objective, origins := m.origins.insertAll origins.toList }
  | _ => return m

/-- The labels that were given before, in order. -/
def repeatedLabels (seen : List String) : List String → List String
  | [] => []
  | l :: ls =>
    if seen.contains l then l :: repeatedLabels seen ls else repeatedLabels (l :: seen) ls

/-- The model of a list of statements. Labels that are given twice are warned about. -/
def ofStatements (symbol : String) (statements : List (Statement K)) : Run K (Model K) := do
  let m ← statements.foldlM extend {}
  (repeatedLabels [] (m.equations.filterMap (·.label))).forM fun l =>
    Run.warn ("Problem '" ++ symbol ++ "' holds more than one equation labeled '" ++ l ++ "'")
  return m

/-- The coefficients of the objective and of the equations, in this order. -/
def coefficientTables (m : Model K) : List (Table String (Expr K)) :=
  (m.objective.map (·.coefficients)).toList ++ m.equations.map (·.coefficients)

/-- The names of the variables, in order of first occurrence in the objective and then in the
equations. -/
def variableNames (m : Model K) : List String :=
  firstOccurrences (m.coefficientTables.map (·.keys)).flatten

def equation? (m : Model K) (name : String) : Option (Equation K) :=
  m.equations.find? (·.identifier == name)

def familyOf (m : Model K) (base : String) : List (Equation K) :=
  m.equations.filter (·.base == some base)

end Model

/-! ## Files -/

/-- The part of a path after its last slash. -/
def baseName (path : List Char) : List Char :=
  (path.reverse.takeWhile (· != '/')).reverse

/-- A file name without its extension. Points at the front belong to the name. -/
def stem (name : List Char) : List Char :=
  let front := name.takeWhile (· == '.')
  let rest := name.dropWhile (· == '.')
  if rest.contains '.' then front ++ ((rest.reverse.dropWhile (· != '.')).drop 1).reverse else name

/-- The text of a file with all line breaks in one form. -/
def unifyLineBreaks : List Char → List Char
  | [] => []
  | '\x0d' :: '\n' :: cs => '\n' :: unifyLineBreaks cs
  | c :: cs => (if c = '\x0d' then '\n' else c) :: unifyLineBreaks cs

namespace Problem

/-- The name of a problem: the one given, or else that of its file. -/
def nameOf (name file : Option String) : String :=
  match name, file with
  | some n, _ => n
  | none, some f => String.ofList (stem (baseName f.toList))
  | none, none => "Initial"

def start (name file description : Option String) : Problem K :=
  { symbol := nameOf name file, description := description.getD "" }

def title (p : Problem K) : String := "Problem '" ++ p.symbol ++ "'"

def isGoal : Statement K → Bool
  | .goal _ => true
  | _ => false

/-- The problem with one more statement. A problem has one objective. -/
def add (p : Problem K) (s : Statement K) : Except (Failure K) (Problem K) :=
  if isGoal s && p.statements.any isGoal then
    .error { cause := .secondObjective p.symbol, statement := some s.literal }
  else .ok { p with statements := p.statements ++ [s], isBuilt := false }

/-- The declaration that a variable of the model comes from. -/
def declarationOf (p : Problem K) (name : String) : Option (Variable K) :=
  (p.model.origins.find? name).bind fun o => p.registry.vars.find? o.1

/-- The report on a problem: what it declares and states, and its model if that is built. -/
def report (p : Problem K) : String :=
  let r := p.registry
  let counts := [
    "Problem: " ++ p.symbol,
    "Tuple schemas: " ++ natText r.schemas.size,
    "Domains: " ++ natText r.domains.length,
    "Parameters: " ++ natText r.params.size,
    "Variables: " ++ natText r.vars.size,
    "Decision expressions: " ++ natText r.dexprs.size,
    "Statements: " ++ natText p.statements.length,
    "Model statements: " ++ natText (p.statements.filter (·.isOfModel)).length]
  let objective := match p.model.objective with
    | some o => o.literal
    | none => "none"
  let model :=
    if p.isBuilt then
      ["Equations: " ++ natText p.model.equations.length,
        "Concrete variables: " ++ natText p.model.variableNames.length,
        "Objective: " ++ objective]
        ++ p.model.equations.map fun q => "\t" ++ q.literal
    else ["Model: not built"]
  String.intercalate "\n" (counts ++ model)

end Problem

/-! ## Work on a problem -/

/-- A problem, and the warnings issued so far. -/
structure Workspace (K : Type) where
  problem : Problem K
  warnings : List String := []

/-- Work on a problem. What was done before a failure stays done. -/
abbrev Work (K : Type) := ExceptT (Failure K) (StateM (Workspace K))

namespace Work

/-- A computation on the registry of the problem. -/
def ofRun (x : Run K α) : Work K α := ExceptT.mk fun w =>
  let (answer, s) := x.start { registry := w.problem.registry, warnings := w.warnings }
  (answer, { problem := { w.problem with registry := s.registry }, warnings := s.warnings })

def problem : Work K (Problem K) := return (← get).problem

def setProblem (p : Problem K) : Work K Unit := modify fun w => { w with problem := p }

/-- Read a statement and add it to the problem. -/
def addStatement (textual : Bool) (text : String) : Work K (Statement K) := do
  let s ← ofRun (parseStatement textual text)
  match (← problem).add s with
  | .ok p =>
    setProblem p
    return s
  | .error e => throw e

/-- Read all statements of a text and add them to the problem. -/
def addScript (textual : Bool) (text : String) : Work K Unit :=
  (Script.splitStatements text).forM fun s => do
    let _ ← addStatement textual s

def build : Work K Unit := do
  let p ← problem
  let model ← ofRun (Model.ofStatements p.symbol p.statements)
  -- the registry has changed on the way, so the problem is asked for again
  setProblem { ← problem with model, isBuilt := true }

/-- Assign data, and build the model if asked to. -/
def load (data : Table String (Value K)) (builds : Bool) : Work K Unit := do
  ofRun (assignAll data)
  if builds then build

/-- Read a model, and build it if asked to. -/
def read (textual builds : Bool) (text : String) : Work K Unit := do
  addScript textual text
  if builds then build

/-- Carry out work on a problem: its answer, the problem it leaves, and its warnings. -/
def start (x : Work K α) (p : Problem K) : Except (Failure K) α × Workspace K :=
  StateT.run (ExceptT.run x) { problem := p }

end Work

end LinearModel
