import LinearModel.LinearForm

/-!
# Equations and objectives

An equation relates a linear form without constant to a constant. An objective is a linear form
that is to be made as small or as large as possible. Coefficients and constants stay expressions,
so that a parameter supplied later still counts; the variables are fixed.
-/
namespace LinearModel

variable {K : Type} [Scalar K]

/-- A relation between a linear form and a constant. `label` names this equation, and `base` the
family of equations that it belongs to, at up to two indices. -/
structure Equation (K : Type) where
  coefficients : Table String (Expr K)
  constant : Expr K
  op : RelOp
  label : Option String := none
  base : Option String := none
  index : Option (Value K) := none
  second : Option (Value K) := none

/-- The direction of an objective. -/
inductive Sense where
  | minimize
  | maximize
  deriving DecidableEq, Repr

def Sense.word : Sense → String
  | .minimize => "minimize"
  | .maximize => "maximize"

def Sense.ofWord? : String → Option Sense
  | "minimize" => some .minimize
  | "maximize" => some .maximize
  | _ => none

/-- A linear form that is to be made small or large. -/
structure Objective (K : Type) where
  sense : Sense
  coefficients : Table String (Expr K)
  constant : Expr K
  name : Option String := none

/-- The numbers that coefficients and a constant evaluate to, coefficients first. -/
def evaluateForm (coefficients : Table String (Expr K)) (constant : Expr K) :
    Run K (List (String × K) × K) := do
  let cs ← evaluateCoefficients coefficients
  let c ← constant.evaluate Env.empty
  return (cs, c)

namespace Equation

/-- The text of an index that may be missing. -/
def indexText : Option (Value K) → String
  | none => ""
  | some v => "[" ++ v.literal ++ "]"

/-- The name of an equation: its label, or else its family with the indices in brackets. -/
def identifier (q : Equation K) : String :=
  match q.label, q.base with
  | some l, _ => l
  | none, some b => b ++ indexText q.index ++ indexText q.second
  | none, none => ""

def literal (q : Equation K) : String :=
  let body := LinearForm.coefficientsLiteral q.coefficients ++ " " ++ q.op.symbol ++ " "
    ++ q.constant.literal
  if q.identifier = "" then body else q.identifier ++ ": " ++ body

/-- The numbers that the coefficients and the constant evaluate to. -/
def evaluate (q : Equation K) : Run K (List (String × K) × K) :=
  evaluateForm q.coefficients q.constant

/-- Whether two sides stand in a relation, up to the tolerance. -/
def relates (op : RelOp) (lhs rhs : K) : Bool :=
  match op with
  | .eq => Scalar.lt (Scalar.abs (lhs - rhs)) Scalar.epsilon
  | .lt => Scalar.lt lhs (rhs - Scalar.epsilon)
  | .le => Scalar.le lhs (rhs + Scalar.epsilon)
  | .gt => Scalar.lt (rhs + Scalar.epsilon) lhs
  | _ => Scalar.le (rhs - Scalar.epsilon) lhs

/-- The number of a coefficient times the value of its variable. -/
def product (values : Table String (Value K)) (c : String × K) : Run K K :=
  match values.find? c.1 with
  | none => Run.fail .missingKey
  | some v => Run.ofExcept (v.scaleBy c.2)

/-- Whether an assignment to the variables satisfies an equation. -/
def isSatisfied (q : Equation K) (values : Table String (Value K)) : Run K Bool := do
  let (cs, c) ← q.evaluate
  let products ← cs.mapM (product values)
  return relates q.op (products.foldl (· + ·) Scalar.zero) c

end Equation

namespace Objective

/-- The listing of an objective. A constant of zero is left out, and so is a form without
variables next to another constant. -/
def literal (o : Objective K) : String :=
  let name := match o.name with
    | none => ""
    | some n => n ++ ": "
  let body := LinearForm.coefficientsLiteral o.coefficients
  let constant := o.constant.literal
  let shown :=
    if constant = "0" then body
    else if body = "0" then constant
    else body ++ " + " ++ constant
  o.sense.word ++ " " ++ name ++ shown

def evaluate (o : Objective K) : Run K (List (String × K) × K) :=
  evaluateForm o.coefficients o.constant

end Objective

/-- The relation that a sign denotes, where it is to relate the sides of an equation. -/
def RelOp.ofSides (s : String) : Except (Cause K) RelOp :=
  match RelOp.ofSymbol? s with
  | some op => if op.relatesSides then .ok op else .error (.unrelatedSides s)
  | none => .error (.unrelatedSides s)

/-- What an equation is called. -/
structure EquationName (K : Type) where
  label : Option String := none
  base : Option String := none
  index : Option (Value K) := none
  second : Option (Value K) := none

/-- The equation that relates two affine expressions, and the origins of its variables. All
variables are brought to the left and all constants to the right. -/
def formulate (lhs : Expr K) (op : RelOp) (rhs : Expr K) (env : Env K)
    (name : EquationName K) : Run K (Equation K × Table String (Origin K)) := do
  if !op.relatesSides then Run.fail (.unrelatedSides op.symbol)
  let form ← linearize (.arith .sub lhs rhs) env
  let constant ← Run.ofExcept ((Expr.neg form.constant).simplify (some (← Run.registry)))
  let equation : Equation K := {
    coefficients := form.coefficients
    constant
    op
    label := name.label
    base := name.base
    index := name.index
    second := name.second }
  return (equation, form.origins)

end LinearModel
