import LinearModel.Grammar.Cursor
import LinearModel.Simplification

/-!
# Grammar of expressions

From the loosest to the tightest, operators are disjunction, conjunction, negation, comparison,
addition and subtraction, multiplication and division, and the signs of a number. What a name
stands for is read off the iterators in scope and the registry.

Brackets, sums, lookups and indices hold expressions of their own. `grammar n` reads expressions
that are nested `n` deep, and each level of nesting takes at least one token.
-/
namespace LinearModel

open LinearModel.Parser

/-- How the expressions inside an expression are read. -/
structure Grammar (K : Type) where
  /-- An expression of any kind. -/
  expression : Parser K (Expr K)
  /-- An expression without comparisons and connectives outside brackets. -/
  arithmetic : Parser K (Expr K)
  /-- A product or quotient, or less. -/
  term : Parser K (Expr K)
  /-- A bound on the number of items of a list. -/
  size : Nat

/-- The names with a fixed meaning. -/
def predefined? {K : Type} [Scalar K] : String → Option K
  | "infinity" => some Scalar.infinity
  | "maxint" => some (Scalar.ofInt 2147483647)
  | "true" => some Scalar.one
  | "false" => some Scalar.zero
  | _ => none

namespace Grammar

variable {K : Type} [Scalar K]

/-! ## Lists, ranges and iterators -/

/-- The items of a tuple in angle brackets. -/
def tupleItems (g : Grammar K) : Parser K (List (Expr K)) := do
  expect "<"
  let items ← separated "," g.arithmetic g.size
  expect ">"
  return items

/-- Two bounds with two points between them, simplified. -/
def range (g : Grammar K) : Parser K (Expr K × Expr K) := do
  let first ← g.arithmetic
  expect ".."
  let last ← g.arithmetic
  let first ← Parser.ofExcept (first.simplify none)
  let last ← Parser.ofExcept (last.simplify none)
  return (first, last)

/-- Whether the token at hand is the name of a domain, and not the start of a range. -/
def namesDomain (r : Registry K) : Parser K Bool := do
  let c ← get
  let s := c.here.literal
  return c.here.isIdentifier && !c.isIterator s && !r.params.contains s
    && (predefined? (K := K) s).isNone && !(c.ahead 1).isOneOf ["..", "+", "-", "*", "/"]

/-- What an iterator runs over. -/
def source (g : Grammar K) (r : Registry K) : Parser K (Source K) := do
  if ← namesDomain r then
    let symbol ← identifier
    if ← accept "[" then
      let outer ← g.expression
      expect "]"
      return .named symbol (some outer)
    else return .named symbol none
  else
    let (first, last) ← g.range
    return .range first last

/-- Iterators in a list, and the condition on all of them. A filter that is followed by another
iterator belongs to its own iterator, and one at the end is the condition. -/
def iteratorList (g : Grammar K) (r : Registry K) :
    Nat → Parser K (List (Iter K) × Option (Expr K))
  | 0 => fail .endless
  | n + 1 => do
    let symbol ← identifier
    expect "in"
    -- the domain does not see the iterator, the filter does
    let src ← g.source r
    bring symbol
    if ← accept ":" then
      let filter ← g.expression
      if ← accept "," then
        let (its, condition) ← iteratorList g r n
        return (.mk symbol src (some filter) :: its, condition)
      else return ([.mk symbol src none], some filter)
    else if ← accept "," then
      let (its, condition) ← iteratorList g r n
      return (.mk symbol src none :: its, condition)
    else return ([.mk symbol src none], none)

/-- Iterators in a list, which stay in scope. -/
def iterators (g : Grammar K) (r : Registry K) : Parser K (List (Iter K) × Option (Expr K)) := do
  openScope []
  g.iteratorList r g.size

/-! ## Operands -/

/-- A sum: its iterators, and the term that follows them. -/
def sum (g : Grammar K) (r : Registry K) : Parser K (Expr K) := do
  advance
  expect "("
  let (its, condition) ← g.iterators r
  expect ")"
  let body ← g.term
  closeScope
  return .sum its body condition

def item (g : Grammar K) : Parser K (Expr K) := do
  advance
  expect "("
  let set ← identifier
  expect ","
  let key ← if (← here).isOperator "<" then g.tupleItems else do pure [← g.arithmetic]
  expect ")"
  return .item set key

/-- What a name with an index stands for. -/
def resolve (r : Registry K) (symbol : String) (idx : List (Expr K)) :
    Except (Cause K) (Expr K) :=
  match r.vars.find? symbol with
  | some v =>
    if v.dim = 0 && idx.isEmpty then .ok (.var symbol symbol none) else .ok (.ivar symbol idx)
  | none =>
    if r.dexprs.contains symbol then
      match idx with
      | [] => .ok (.dexpr symbol none)
      | [e] => .ok (.dexpr symbol (some e))
      | _ => .error (.dexprIndexCount symbol)
    else if idx.isEmpty then .ok (.name symbol)
    else .ok (.param symbol idx)

/-- A name, with its index if it has one. -/
def reference (g : Grammar K) (r : Registry K) : Parser K (Expr K) := do
  let symbol ← identifier
  -- an iterator hides whatever else has its name
  if (← get).isIterator symbol then return .name symbol
  else
    match predefined? symbol with
    | some x => return .num x
    | none =>
      let idx ← bracketGroups g.size g.arithmetic g.size
      Parser.ofExcept (resolve r symbol idx)

/-- An operand without signs and field access. -/
def primary (g : Grammar K) (r : Registry K) : Parser K (Expr K) := do
  let t ← here
  match t.lexeme with
  | .number n =>
    advance
    match n with
    | .int i => return .num (← Parser.ofExcept (scalarOfInt i))
    | .real x => return .num x
  | .text s =>
    advance
    return .str s
  | .operator =>
    if t.literal == "(" then
      advance
      let e ← g.expression
      expect ")"
      return e
    else if t.literal == "<" then fail .strayTupleLiteral
    else fail (.unexpectedOperand t.literal)
  | .identifier =>
    if (← ahead 1).isOperator "(" then
      if t.literal == "sum" then g.sum r
      else if t.literal == "item" then g.item
      else fail (.unsupportedFunction t.literal)
    else g.reference r
  | .stop => fail (.unexpectedOperand t.literal)

/-! ## Operators -/

/-- Fields accessed one after the other. -/
def fields (e : Expr K) : Nat → Parser K (Expr K)
  | 0 => fail .endless
  | n + 1 => do
    if (← here).isOperator "." && (← ahead 1).isIdentifier then
      advance
      fields (.field e (← identifier)) n
    else return e

/-- An operand with the fields accessed of it. -/
def operand (g : Grammar K) (r : Registry K) : Parser K (Expr K) := do
  fields (← g.primary r) g.size

/-- An operand with its signs. A plus has no effect. -/
def signed (operand : Parser K (Expr K)) : Nat → Parser K (Expr K)
  | 0 => fail .endless
  | n + 1 => do
    if ← accept "-" then return .neg (← signed operand n)
    else if ← accept "+" then signed operand n
    else operand

/-- The arithmetic operator at hand, if it is one of the given ones. -/
def arithOp? (ops : List ArithOp) : Parser K (Option ArithOp) := do
  let t ← here
  if t.isAnyOperator then return ops.find? (·.symbol == t.literal) else return none

/-- Further operands with operators between them, grouped to the left. -/
def grouped (ops : List ArithOp) (operand : Parser K (Expr K)) (lhs : Expr K) :
    Nat → Parser K (Expr K)
  | 0 => fail .endless
  | n + 1 => do
    match ← arithOp? ops with
    | none => return lhs
    | some op =>
      advance
      grouped ops operand (.arith op lhs (← operand)) n

def termOf (g : Grammar K) (r : Registry K) : Parser K (Expr K) := do
  let operand := signed (g.operand r) g.size
  grouped [.mul, .div] operand (← operand) g.size

def arithmeticOf (g : Grammar K) (r : Registry K) : Parser K (Expr K) := do
  grouped [.add, .sub] (g.termOf r) (← g.termOf r) g.size

/-- A comparison, or less. -/
def comparison (g : Grammar K) (r : Registry K) : Parser K (Expr K) := do
  let lhs ← g.arithmeticOf r
  let t ← here
  match RelOp.ofSymbol? t.literal with
  | some op =>
    advance
    return .rel op lhs (← g.arithmeticOf r)
  | none => if t.isOperator "=" then fail .assignmentInExpression else return lhs

/-- A negation, or less. -/
def negation (g : Grammar K) (r : Registry K) : Nat → Parser K (Expr K)
  | 0 => fail .endless
  | n + 1 => do
    if ← accept "!" then return .logic .not [← negation g r n] else g.comparison r

/-- Operands with a connective between them. One alone stands for itself. -/
def connected (op : LogicOp) (operand : Parser K (Expr K)) (size : Nat) : Parser K (Expr K) := do
  match ← separated op.symbol operand size with
  | [e] => return e
  | es => return .logic op es

def expressionOf (g : Grammar K) (r : Registry K) : Parser K (Expr K) :=
  connected .or (connected .and (g.negation r g.size) g.size) g.size

end Grammar

variable {K : Type} [Scalar K]

/-- The grammar of expressions that are nested `n` deep and hold lists of up to `size` items. -/
def grammar (r : Registry K) (size : Nat) : Nat → Grammar K
  | 0 =>
    { expression := fail .endless
      arithmetic := fail .endless
      term := fail .endless
      size }
  | n + 1 =>
    { expression := fun c => (grammar r size n).expressionOf r c
      arithmetic := fun c => (grammar r size n).arithmeticOf r c
      term := fun c => (grammar r size n).termOf r c
      size }

/-- The grammar for the tokens at a cursor: neither nesting nor lists can exceed them. -/
def Cursor.grammar (c : Cursor K) (r : Registry K) : Grammar K :=
  LinearModel.grammar r (c.size + 1) (c.size + 1)

def parseExpression (r : Registry K) (text : String) : Except (Cause K) (Expr K) := do
  let c ← Cursor.ofText text
  let (e, c) ← (c.grammar r).expression c
  if c.here.isStop then return e else .error (.trailingInExpression c.here.literal text)

end LinearModel
