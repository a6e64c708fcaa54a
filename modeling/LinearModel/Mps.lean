import LinearModel.Problem

/-!
# MPS

A model is written in free MPS format: rows, columns with their entries, right-hand sides and
bounds. The format minimizes, so the coefficients of an objective that is to be maximized are
negated. Strict inequalities are written as weak ones. Names are made of ASCII letters, digits and
underscores, are at most 24 characters long, and are made unique by a number at the end.
-/
namespace LinearModel.Mps

variable {K : Type} [Scalar K]

/-! ## Names -/

def maxNameLength : Nat := 24

/-- Whether a character may stand in a name. -/
def isNameChar (c : Char) : Bool :=
  ('a' ≤ c && c ≤ 'z') || ('A' ≤ c && c ≤ 'Z') || ('0' ≤ c && c ≤ '9') || c == '_'

/-- A text without the underscores at its ends. -/
def stripUnderscores (cs : List Char) : List Char :=
  ((cs.dropWhile (· == '_')).reverse.dropWhile (· == '_')).reverse

/-- A name that is legal in the format. -/
def legalName (name : List Char) : List Char :=
  match stripUnderscores (name.map fun c => if isNameChar c then c else '_') with
  | [] => ['R']
  | cs => cs.take maxNameLength

/-- A name with a number at its end, cut to fit. -/
def numberedName (name : List Char) (n : Nat) : List Char :=
  let ending := '_' :: (natText n).toList
  name.take (maxNameLength - ending.length) ++ ending

/-- The first numbered name that is free, out of `tries` of them. -/
def freeNumbered (used : List (List Char)) (name : List Char) (n : Nat) : Nat → List Char
  | 0 => numberedName name n
  | tries + 1 =>
    if used.contains (numberedName name n) then freeNumbered used name (n + 1) tries
    else numberedName name n

/-- A name that is free: itself, or a numbered one. Among more numbers than there are names in use,
one is free. -/
def freeName (used : List (List Char)) (name : List Char) : List Char :=
  if used.contains name then freeNumbered used name 1 used.length else name

/-- Legal and pairwise different names, none of which is in use. -/
def uniqueNames (used : List (List Char)) : List (List Char) → List (List Char)
  | [] => []
  | n :: ns =>
    let name := freeName used (legalName n)
    name :: uniqueNames (name :: used) ns

mutual
/-- An index element as a part of a name. A record stands for its key. -/
def indexPart : Value K → String
  | .str s => s
  | .record s vs =>
    let parts := s.fields.zip (indexParts vs)
    String.intercalate "_" (s.keys.filterMap fun f => (parts.find? (·.1.1 == f)).map (·.2))
  | v => v.numberText

def indexParts : List (Value K) → List String
  | [] => []
  | v :: vs => indexPart v :: indexParts vs
end

/-- An index element that may be missing, after an underscore. -/
def indexSuffix : Option (Value K) → String
  | none => ""
  | some v => "_" ++ indexPart v

/-- What the row of an equation should be called. `n` is the number of the equation. -/
def rowTitle (q : Equation K) (n : Nat) : String :=
  match q.base, q.label with
  | some b, _ => b ++ indexSuffix q.index ++ indexSuffix q.second
  | none, some l => l
  | none, none => "R" ++ natText n

/-! ## Lines -/

def padRight (n : Nat) (s : String) : String :=
  s ++ String.ofList (List.replicate (n - s.length) ' ')

def padLeft (n : Nat) (s : String) : String :=
  String.ofList (List.replicate (n - s.length) ' ') ++ s

/-- The letter for the kind of a row. -/
def rowType : RelOp → String
  | .le | .lt => "L"
  | .ge | .gt => "G"
  | .eq | .ne => "E"

def entryLine (column row : String) (x : K) : String :=
  "    " ++ padRight 10 column ++ " " ++ padRight 10 row ++ " "
    ++ padLeft 12 (Scalar.exchangeText x)

/-- The line that opens or closes a block of integer columns. -/
def markerLine (n : Nat) (opens : Bool) : String :=
  "    MARKER" ++ natText n ++ "      'MARKER'      '" ++ (if opens then "INTORG" else "INTEND")
    ++ "'"

/-- The line of a bound without a value. -/
def plainBound (kind column : String) : String := " " ++ kind ++ " BOUND1     " ++ column

/-- The line of a bound with a value. -/
def valueBound (kind column : String) (x : K) : String :=
  " " ++ kind ++ " BOUND1     " ++ padRight 10 column ++ " " ++ padLeft 12 (Scalar.exchangeText x)

def boundLines (type : TypeName) (column : String) (lower upper : K) : List String :=
  if type = .boolean && Scalar.eq lower Scalar.zero && Scalar.eq upper Scalar.one then
    [plainBound "BV" column]
  else if Scalar.isInfinite lower && Scalar.isInfinite upper then [plainBound "FR" column]
  else
    -- a lower bound of zero goes without saying
    let low :=
      if Scalar.isInfinite lower then [plainBound "MI" column]
      else if !Scalar.eq lower Scalar.zero then [valueBound "LO" column lower]
      else if Scalar.isInfinite upper then [plainBound "PL" column]
      else []
    let high := if Scalar.isInfinite upper then [] else [valueBound "UP" column upper]
    low ++ high

/-! ## Sections -/

/-- A row: its name, and its coefficients and constant. The objective has no relation. -/
structure Row (K : Type) where
  name : String
  relation : Option RelOp
  coefficients : List (String × K)
  constant : K

/-- A column: its variable, its name, and the declaration of the variable. -/
structure Column (K : Type) where
  dvar : String
  name : String
  declaration : Option (Variable K)

/-- Whether a column holds whole numbers only. -/
def Column.isInteger (c : Column K) : Bool := c.declaration.any (·.isInteger)

/-- The entries of a column, one for each row with a coefficient that is not zero. -/
def entryLines (rows : List (Row K)) (c : Column K) : List String :=
  rows.filterMap fun row =>
    match Table.findIn c.dvar row.coefficients with
    | some x => if Scalar.isZero x then none else some (entryLine c.name row.name x)
    | none => none

/-- The columns with their entries. Runs of integer columns stand between numbered markers;
`inBlock` says whether such a run is open, and `n` is the number of the next marker. -/
def columnLines (rows : List (Row K)) (inBlock : Bool) (n : Nat) : List (Column K) → List String
  | [] => if inBlock then [markerLine n false] else []
  | c :: cs =>
    if c.isInteger = inBlock then entryLines rows c ++ columnLines rows inBlock n cs
    else
      markerLine n c.isInteger :: entryLines rows c ++ columnLines rows c.isInteger (n + 1) cs

/-- The right-hand sides that are not zero. -/
def constantLines (rows : List (Row K)) : List String :=
  rows.filterMap fun row =>
    if Scalar.isZero row.constant then none else some (entryLine "RHS1" row.name row.constant)

def rowLine (row : Row K) : String :=
  match row.relation with
  | none => " N  " ++ row.name
  | some op => " " ++ rowType op ++ "  " ++ row.name

/-! ## Models -/

/-- The row of the objective, as it is minimized. Its constant is on the other side. -/
def objectiveRow (name : String) (o : Objective K) : Run K (Row K) := do
  let (cs, c) ← o.evaluate
  let sign : K := Scalar.ofInt (if o.sense = .maximize then -1 else 1)
  return { name, relation := none, coefficients := cs.map fun e => (e.1, sign * e.2)
           constant := -sign * c }

def equationRow (name : String) (q : Equation K) : Run K (Row K) := do
  let (coefficients, constant) ← q.evaluate
  return { name, relation := some q.op, coefficients, constant }

/-- What the rows of equations should be called. -/
def rowTitles (qs : List (Equation K)) : List (List Char) :=
  qs.zipIdx.map fun e => (rowTitle e.1 (e.2 + 1)).toList

def columns (p : Problem K) : List (Column K) :=
  let names := p.model.variableNames
  (names.zip (uniqueNames [] (names.map String.toList))).map fun e =>
    { dvar := e.1, name := String.ofList e.2, declaration := p.declarationOf e.1 }

/-- The lines for the bounds of a column whose variable is declared. -/
def columnBounds (c : Column K) : Run K (List String) := do
  match c.declaration with
  | none => return []
  | some v =>
    let (lower, upper) ← v.bounds
    return boundLines v.type c.name lower upper

def fileLines (name : String) (rows : List (Row K)) (cols : List (Column K))
    (bounds : List String) : List String :=
  ["NAME          " ++ name, "ROWS"] ++ rows.map rowLine ++ ["COLUMNS"]
    ++ columnLines rows false 0 cols ++ ["RHS"] ++ constantLines rows ++ ["BOUNDS"] ++ bounds
    ++ ["ENDATA"]

/-- The exchange file of a problem that has been built and has an objective. -/
def file (p : Problem K) : Run K String := do
  if !p.isBuilt then Run.fail .exchangeNotBuilt
  match p.model.objective with
  | none => Run.fail .exchangeWithoutObjective
  | some o =>
    let objectiveName := legalName (o.name.getD "OBJ").toList
    let names := uniqueNames [objectiveName] (rowTitles p.model.equations)
    -- an evaluation may leave parameters evaluated, so the order matters
    let objective ← objectiveRow (String.ofList objectiveName) o
    let rows ← (names.zip p.model.equations).mapM fun e => equationRow (String.ofList e.1) e.2
    let cols := columns p
    let bounds ← cols.mapM columnBounds
    let title := String.ofList (legalName p.symbol.toList)
    let lines := fileLines title (objective :: rows) cols bounds.flatten
    return String.join (lines.map (· ++ "\n"))

end LinearModel.Mps
