import LinearModel.Equation

/-!
# Statements

A statement declares an entity, states constraints, states the objective, or is ignored.
Constraints stand alone or in families, which may be nested. A statement keeps the text it was
read from, and can be written anew from what it holds.
-/
namespace LinearModel

/-- A constraint: two affine expressions in a relation, with a label that may be indexed. -/
structure Constraint (K : Type) where
  literal : String
  label : Option String := none
  labelIndex : List (Expr K) := []
  lhs : Expr K
  op : RelOp
  rhs : Expr K

/-- A constraint, or a family of constraints over iterators. -/
inductive Rule (K : Type) where
  | single (c : Constraint K)
  | family (literal : String) (iterators : List (Iter K)) (condition : Option (Expr K))
      (body : List (Rule K))

/-- The objective as it was stated. -/
structure Goal (K : Type) where
  literal : String
  sense : Sense
  name : Option String := none
  body : Expr K

inductive Statement (K : Type) where
  | declaration (literal : String) (entity : Entity K)
  | rule (r : Rule K)
  | goal (g : Goal K)
  | ignored (literal : String)

variable {K : Type} [Scalar K]

/-- The indentation of a line. -/
def tabs (n : Nat) : String := String.ofList (List.replicate n '\t')

namespace Constraint

def text (c : Constraint K) (indent : Nat) : String :=
  let label := match c.label with
    | none => ""
    | some l => l ++ String.join (Expr.bracketed c.labelIndex) ++ ": "
  tabs indent ++ label ++ c.lhs.literal ++ " " ++ c.op.symbol ++ " " ++ c.rhs.literal ++ ";"

end Constraint

namespace Rule

/-- The text that a rule was read from. -/
def literal : Rule K → String
  | .single c => c.literal
  | .family s _ _ _ => s

mutual
/-- The text of a rule. A family of one follows its iterators on the same line. -/
def text : Rule K → Nat → String
  | .single c, indent => c.text indent
  | .family _ its condition [r], indent =>
    tabs indent ++ "forall(" ++ iteratorsLiteral its condition ++ ") " ++ text r 0
  | .family _ its condition body, indent =>
    tabs indent ++ "forall(" ++ iteratorsLiteral its condition ++ ") \x7b\n"
      ++ String.join (lines body (indent + 1)) ++ tabs indent ++ "\x7d"

/-- The lines of a block of rules. -/
def lines : List (Rule K) → Nat → List String
  | [], _ => []
  | r :: rs, indent => (text r indent ++ "\n") :: lines rs indent
end

end Rule

namespace Goal

def text (g : Goal K) (indent : Nat) : String :=
  let name := match g.name with
    | none => ""
    | some n => n ++ ": "
  tabs indent ++ g.sense.word ++ " " ++ name ++ g.body.literal ++ ";"

end Goal

namespace Statement

/-- The text that a statement was read from. -/
def literal : Statement K → String
  | .declaration s _ => s
  | .rule r => r.literal
  | .goal g => g.literal
  | .ignored s => s

/-- Whether a statement contributes equations or an objective. -/
def isOfModel : Statement K → Bool
  | .rule _ | .goal _ => true
  | .declaration _ _ | .ignored _ => false

/-- The text of a statement. A declaration shows its entity as it stands in the registry. -/
def text (r : Registry K) (s : Statement K) (indent : Nat) : String :=
  match s with
  | .declaration _ e => tabs indent ++ (r.current e).literal ++ ";"
  | .rule c => c.text indent
  | .goal g => g.text indent
  | .ignored literal => tabs indent ++ literal

end Statement

end LinearModel
