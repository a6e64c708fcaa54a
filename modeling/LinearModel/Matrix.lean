import LinearModel.Problem

/-!
# Matrix form

A model in numbers: a row of coefficients and a constant for each equation, the coefficients and
the constant of the objective, and bounds. Columns follow the order in which variables first occur.
-/
namespace LinearModel

variable {K : Type} [Scalar K]

/-- A model in numbers. -/
structure MatrixForm (K : Type) where
  columns : List String
  rows : List String
  coefficients : List (List K)
  constants : List K
  relations : List RelOp
  objective : List K
  objectiveConstant : K
  lower : List K
  upper : List K
  isMaximized : Bool

namespace MatrixForm

/-- A row of coefficients in the order of the columns. A variable without coefficient has zero. -/
def denseRow (columns : List String) (cs : List (String × K)) : List K :=
  columns.map fun v => (Table.findIn v cs).getD Scalar.zero

/-- The coefficients and the constant of the objective. Without an objective they are zero. -/
def objectiveOf (columns : List String) : Option (Objective K) → Run K (List K × K)
  | none => return (denseRow columns [], Scalar.zero)
  | some o => do
    let (cs, c) ← o.evaluate
    return (denseRow columns cs, c)

/-- The bounds of a column. A variable without declaration is unbounded. -/
def boundsOf (p : Problem K) (name : String) : Run K (K × K) :=
  match p.declarationOf name with
  | none => return (-Scalar.infinity, Scalar.infinity)
  | some v => v.bounds

/-- The matrix form of a problem that has been built. -/
def ofProblem (p : Problem K) : Run K (MatrixForm K) := do
  if !p.isBuilt then Run.fail .matrixNotBuilt
  let columns := p.model.variableNames
  let equations := p.model.equations
  -- unlike in an exchange file, the equations are evaluated before the objective
  let values ← equations.mapM Equation.evaluate
  let (objective, objectiveConstant) ← objectiveOf columns p.model.objective
  let bounds ← columns.mapM (boundsOf p)
  return {
    columns
    rows := equations.map (·.identifier)
    coefficients := values.map fun v => denseRow columns v.1
    constants := values.map (·.2)
    relations := equations.map (·.op)
    objective
    objectiveConstant
    lower := bounds.map (·.1)
    upper := bounds.map (·.2)
    isMaximized := p.model.objective.any (·.sense == .maximize) }

def dot (xs ys : List K) : K := (List.zipWith (· * ·) xs ys).foldl (· + ·) Scalar.zero

/-- How far the left side of each row lies above its constant at a point. -/
def residuals (m : MatrixForm K) (x : List K) : Except (Cause K) (List K) :=
  if x.length ≠ m.columns.length then .error .wrongLength
  else .ok (List.zipWith (fun row b => dot row x - b) m.coefficients m.constants)

/-- Whether a residual breaks a relation, up to the tolerance. -/
def breaks (op : RelOp) (r : K) : Bool :=
  match op with
  | .eq => Scalar.le Scalar.epsilon (Scalar.abs r)
  | .le => Scalar.lt Scalar.epsilon r
  | .lt => Scalar.le (-Scalar.epsilon) r
  | .ge => Scalar.lt r (-Scalar.epsilon)
  | .gt => Scalar.le r Scalar.epsilon
  | .ne => false

/-- Whether a point satisfies every row and every bound, up to the tolerance. -/
def isFeasible (m : MatrixForm K) (x : List K) : Except (Cause K) Bool := do
  let rs ← m.residuals x
  let rowBroken := (m.relations.zip rs).any fun e => breaks e.1 e.2
  let belowLower := (x.zip m.lower).any fun e => Scalar.lt e.1 (e.2 - Scalar.epsilon)
  let aboveUpper := (x.zip m.upper).any fun e => Scalar.lt (e.2 + Scalar.epsilon) e.1
  return !rowBroken && !belowLower && !aboveUpper

end MatrixForm

end LinearModel
