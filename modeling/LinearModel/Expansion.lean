import LinearModel.Statement

/-!
# Expansion

A constraint gives one equation under each combination of the iterators around it. Equations come
in the order of the combinations, and within one combination in the order of the statements.
-/
namespace LinearModel

variable {K : Type} [Scalar K] {α : Type}

/-- An equation, and the origins of its variables. -/
abbrev Derived (K : Type) := Equation K × Table String (Origin K)

/-- What the equation of a constraint is called under the bindings of an environment. -/
def Constraint.nameIn (c : Constraint K) (env : Env K) : Run K (EquationName K) := do
  match c.label with
  | none => return {}
  | some l =>
    if c.labelIndex.isEmpty then return { label := some l, base := some l }
    else
      let idx ← Expr.elements (← Run.lookup) c.labelIndex env
      return { label := some (l ++ Value.indexLiteral idx), base := some l, index := idx[0]?,
               second := idx[1]? }

/-- The equation of a constraint under the bindings of an environment. -/
def Constraint.expand (c : Constraint K) (env : Env K) : Run K (Derived K) :=
  Run.mapFailure (·.withBindings env.bindings) do
    formulate c.lhs c.op c.rhs env (← c.nameIn env)

namespace Rule

mutual
/-- Do something for every constraint of a rule, under every combination of the iterators around
it, and list the results in order. -/
def forEach (f : Constraint K → Env K → Run K α) : Rule K → Env K → Run K (List α)
  | .single c, env => do return [← f c env]
  | .family _ its condition body, env => do
    let found ← enumerate (← Run.lookup) its condition env fun inner => forEachOf f body inner
    return found.flatten

/-- Do something for every constraint of some rules, one rule after the other. -/
def forEachOf (f : Constraint K → Env K → Run K α) : List (Rule K) → Env K → Run K (List α)
  | [], _ => return []
  | r :: rs, env => do
    let found ← forEach f r env
    let further ← forEachOf f rs env
    return found ++ further
end

/-- The equations of a rule under the bindings of an environment. -/
def expand (r : Rule K) (env : Env K) : Run K (List (Derived K)) := r.forEach Constraint.expand env

end Rule

/-- The origins of all variables. Of two entries for one variable the later counts. -/
def mergeOrigins (ts : List (Table String (Origin K))) : Table String (Origin K) :=
  ts.foldl (fun t u => t.insertAll u.toList) Table.empty

/-- The equations of a rule, and the origins of their variables. -/
def Rule.equations (r : Rule K) : Run K (List (Equation K) × Table String (Origin K)) :=
  Run.mapFailure (·.inStatement r.literal) do
    let ds ← r.expand Env.empty
    return (ds.map (·.1), mergeOrigins (ds.map (·.2)))

/-- The objective as a linear form, and the origins of its variables. -/
def Goal.objective (g : Goal K) : Run K (Objective K × Table String (Origin K)) :=
  Run.mapFailure (·.inStatement g.literal) do
    let form ← linearize g.body Env.empty
    let objective : Objective K := {
      sense := g.sense
      coefficients := form.coefficients
      constant := form.constant
      name := g.name }
    return (objective, form.origins)

def Statement.equations : Statement K → Run K (List (Equation K) × Table String (Origin K))
  | .rule r => r.equations
  | s => Run.fail (.notExpandable s.literal)

end LinearModel
