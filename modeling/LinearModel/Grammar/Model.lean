import LinearModel.Grammar.Expression
import LinearModel.Statement

/-!
# Grammar of constraints and objectives

A constraint relates two expressions, and may have a label in front. A label with iterators in
brackets makes the constraint a family. A family may also be written with its iterators in front
of one constraint or of several in braces.
-/
namespace LinearModel

open LinearModel.Parser

namespace Grammar

variable {K : Type} [Scalar K]

/-- Whether tokens go on with a colon after groups in square brackets. -/
def colonFollows (depth : Int) : List (Token K) → Bool
  | [] => false
  | t :: ts =>
    if t.isOperator "[" then colonFollows (depth + 1) ts
    else if t.isOperator "]" then colonFollows (depth - 1) ts
    else if depth = 0 then t.isOperator ":"
    else colonFollows depth ts

def isLabelled : Parser K Bool := do
  let c ← get
  return c.here.isIdentifier && colonFollows 0 c.rest

/-- Whether a bracket with an iterator is at hand. -/
def opensIterators : Parser K Bool := do
  return (← here).isOperator "[" && (← ahead 2).isWord "in"

/-- A label: its name, its index, and its iterators with their condition if it has any. -/
structure Label (K : Type) where
  name : Option String := none
  index : List (Expr K) := []
  iterators : Option (List (Iter K) × Option (Expr K)) := none

/-- The label of a constraint, if there is one. Its iterators stay in scope. -/
def label (g : Grammar K) (r : Registry K) : Parser K (Label K) := do
  if ← isLabelled then
    let name ← identifier
    if ← opensIterators then
      advance
      let (its, condition) ← g.iterators r
      expect "]"
      expect ":"
      return {
        name, index := its.map fun it => .name it.symbol, iterators := some (its, condition) }
    else
      let index ← bracketGroups g.size g.arithmetic g.size
      expect ":"
      return { name, index }
  else return {}

def relation : Parser K RelOp := do
  let t ← here
  if t.literal == "=" then fail .assignmentInConstraint
  else
    match RelOp.ofSymbol? t.literal with
    | some op =>
      if op.relatesSides then
        advance
        return op
      else fail (.expectedComparison t.literal)
    | none => fail (.expectedComparison t.literal)

/-- A constraint, or a family of constraints given by a label with iterators. -/
def constraint (g : Grammar K) (r : Registry K) : Parser K (Rule K) := do
  let start ← here
  let label ← g.label r
  let lhs ← g.arithmetic
  let op ← relation
  let rhs ← g.arithmetic
  if (RelOp.ofSymbol? (← here).literal).isSome then fail .chainedComparison
  let literal ← textSince start
  let c : Constraint K := { literal, label := label.name, labelIndex := label.index, lhs, op, rhs }
  match label.iterators with
  | none => return .single c
  | some (its, condition) =>
    closeScope
    return .family literal its condition [.single c]

/-- Rules up to a closing brace, each with a semicolon after it or not. -/
def block (rule : Parser K (Rule K)) : Nat → Parser K (List (Rule K))
  | 0 => fail .endless
  | n + 1 => do
    if (← here).isOperator "\x7d" then
      advance
      return []
    else
      let c ← rule
      let _ ← accept ";"
      return c :: (← block rule n)

def family (g : Grammar K) (r : Registry K) (rule : Parser K (Rule K)) : Parser K (Rule K) := do
  let start ← here
  advance
  expect "("
  let (its, condition) ← g.iterators r
  expect ")"
  let body ← if ← accept "\x7b" then block rule g.size else do pure [← rule]
  closeScope
  return .family (← textSince start) its condition body

/-- A constraint or a family of rules nested `n` deep. -/
def rule (g : Grammar K) (r : Registry K) : Nat → Parser K (Rule K)
  | 0 => fail .endless
  | n + 1 => do
    if (← here).isWord "forall" then g.family r (fun c => rule g r n c) else g.constraint r

def goal (g : Grammar K) (sense : Sense) : Parser K (Goal K) := do
  let c ← get
  advance
  let name ← if (← here).isIdentifier && (← ahead 1).isOperator ":" then do
      let name ← identifier
      advance
      pure (some name)
    else pure none
  let body ← g.arithmetic
  return { literal := String.ofList c.text, sense, name, body }

end Grammar

end LinearModel
