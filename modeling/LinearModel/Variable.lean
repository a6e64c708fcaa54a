import LinearModel.Value.Coercion

/-!
# Decision variables

A declared decision variable stands for one variable, or for one per index. Each of these has a
name of its own: the first index follows the symbol, and each further index follows an underscore.
A decision expression is a named expression over variables, or a family of them with one index.
-/
namespace LinearModel

/-- A declared decision variable. -/
structure Variable (K : Type) where
  symbol : String
  type : TypeName
  domains : List String := []
  lower : Option (Expr K) := none
  upper : Option (Expr K) := none

/-- A declared decision expression. -/
structure DecisionExpression (K : Type) where
  symbol : String
  type : String
  body : Expr K
  /-- The symbol that binds the index of a family. -/
  index : Option String := none
  domain : Option String := none

namespace Variable

variable {K : Type} [Scalar K]

/-- The most indices that a decision variable may have. -/
def maxDimensions : Nat := 2

/-- Declare a decision variable. -/
def make (symbol : String) (type : TypeName) (domains : List String)
    (lower upper : Option (Expr K)) : Except (Cause K) (Variable K) :=
  if maxDimensions < domains.length then .error (.tooManyDimensions symbol domains.length)
  else .ok { symbol, type, domains, lower, upper }

def dim (v : Variable K) : Nat := v.domains.length

/-- Whether the variable takes whole values only. -/
def isInteger (v : Variable K) : Bool :=
  match v.type with
  | .int | .boolean => true
  | _ => false

/-- An index element as a part of a variable name. A record stands for its key. -/
def namePart (e : Value K) : String :=
  match e.normalize with
  | .record s vs => String.intercalate "_" ((Value.recordKey s vs).map Value.numberText)
  | e => e.numberText

/-- The name of the single variable at an index. -/
def nameAt (symbol : String) (idx : Index K) : String :=
  symbol ++ String.intercalate "_" (idx.map namePart)

def literal (v : Variable K) : String :=
  let head := "dvar " ++ v.type.name ++ " " ++ v.symbol
    ++ String.join (v.domains.map fun d => "[" ++ d ++ "]")
  match v.lower, v.upper with
  | some l, some u => head ++ " in " ++ l.literal ++ ".." ++ u.literal
  | _, _ => head

end Variable

namespace DecisionExpression

variable {K : Type} [Scalar K]

def dim (d : DecisionExpression K) : Nat := if d.index.isSome then 1 else 0

def literal (d : DecisionExpression K) : String :=
  let index := match d.index with
    | none => ""
    | some i => "[" ++ i ++ " in " ++ d.domain.getD "None" ++ "]"
  "dexpr " ++ d.type ++ " " ++ d.symbol ++ index ++ " = " ++ d.body.literal

end DecisionExpression

end LinearModel
