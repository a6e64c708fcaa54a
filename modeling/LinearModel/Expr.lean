import LinearModel.Value

/-!
# Expressions

The expressions of a model are arithmetic over numbers, parameters, decision variables and
decision expressions, with comparisons and connectives for conditions, access to the fields of
records, lookup of a record by its key, and sums over iterators. An iterator runs over a declared
domain, over a member of a family of sets, or over a range written in place.
-/
namespace LinearModel

inductive ArithOp where
  | add
  | sub
  | mul
  | div
  deriving DecidableEq, Repr

namespace ArithOp

def symbol : ArithOp → String
  | .add => "+"
  | .sub => "-"
  | .mul => "*"
  | .div => "/"

def ofSymbol? : String → Option ArithOp
  | "+" => some .add
  | "-" => some .sub
  | "*" => some .mul
  | "/" => some .div
  | _ => none

/-- Products and quotients bind more tightly than sums and differences. -/
def precedence : ArithOp → Nat
  | .add | .sub => 1
  | .mul | .div => 2

/-- Whether an operator may be regrouped to the left. -/
def isAssociative : ArithOp → Bool
  | .add | .mul => true
  | .sub | .div => false

def apply {K : Type} [Scalar K] : ArithOp → K → K → K
  | .add, x, y => x + y
  | .sub, x, y => x - y
  | .mul, x, y => x * y
  | .div, x, y => x / y

@[simp] theorem ofSymbol?_symbol (op : ArithOp) : ofSymbol? op.symbol = some op := by
  cases op <;> rfl

end ArithOp

inductive RelOp where
  | eq
  | ne
  | lt
  | le
  | gt
  | ge
  deriving DecidableEq, Repr

namespace RelOp

def symbol : RelOp → String
  | .eq => "=="
  | .ne => "!="
  | .lt => "<"
  | .le => "<="
  | .gt => ">"
  | .ge => ">="

def ofSymbol? : String → Option RelOp
  | "==" => some .eq
  | "!=" => some .ne
  | "<" => some .lt
  | "<=" => some .le
  | ">" => some .gt
  | ">=" => some .ge
  | _ => none

@[simp] theorem ofSymbol?_symbol (op : RelOp) : ofSymbol? op.symbol = some op := by
  cases op <;> rfl

/-- Whether a comparison may relate the two sides of a linear equation. -/
def relatesSides : RelOp → Bool
  | .ne => false
  | _ => true

end RelOp

inductive LogicOp where
  | and
  | or
  | not
  deriving DecidableEq, Repr

namespace LogicOp

def symbol : LogicOp → String
  | .and => "&&"
  | .or => "||"
  | .not => "!"

def ofSymbol? : String → Option LogicOp
  | "&&" => some .and
  | "||" => some .or
  | "!" => some .not
  | _ => none

end LogicOp

mutual
inductive Expr (K : Type) where
  | num (x : K)
  | str (s : String)
  | record (schema : Schema) (values : List (Value K))
  /-- A name that is a bound iterator or a scalar parameter. -/
  | name (symbol : String)
  | param (symbol : String) (index : List (Expr K))
  /-- A single decision variable: its own name, the symbol it was declared under, and its index
  there if it has one. -/
  | var (name base : String) (index : Option (Index K))
  | ivar (symbol : String) (index : List (Expr K))
  | dexpr (symbol : String) (index : Option (Expr K))
  | arith (op : ArithOp) (lhs rhs : Expr K)
  | neg (operand : Expr K)
  | rel (op : RelOp) (lhs rhs : Expr K)
  | logic (op : LogicOp) (operands : List (Expr K))
  | field (base : Expr K) (field : String)
  /-- The record of a set with a given key. -/
  | item (set : String) (key : List (Expr K))
  | sum (iterators : List (Iter K)) (body : Expr K) (condition : Option (Expr K))

/-- An iterator: its symbol, what it runs over, and a filter on its elements. -/
inductive Iter (K : Type) where
  | mk (symbol : String) (source : Source K) (filter : Option (Expr K))

/-- What an iterator runs over. -/
inductive Source (K : Type) where
  /-- A declared domain, or the member of a family of sets at an index. -/
  | named (symbol : String) (outer : Option (Expr K))
  | range (first last : Expr K)
end

namespace Iter

variable {K : Type}

instance : Inhabited (Iter K) := ⟨.mk "" (.named "" none) none⟩

def symbol : Iter K → String
  | .mk s _ _ => s

def source : Iter K → Source K
  | .mk _ s _ => s

def filter : Iter K → Option (Expr K)
  | .mk _ _ f => f

end Iter

namespace Expr

variable {K : Type} [Scalar K]

instance : Inhabited (Expr K) := ⟨.num Scalar.zero⟩

def zero : Expr K := .num Scalar.zero

/-- The expressions directly below an expression. Iterators do not count. -/
def children : Expr K → List (Expr K)
  | .param _ idx | .ivar _ idx => idx
  | .dexpr _ (some e) => [e]
  | .arith _ l r | .rel _ l r => [l, r]
  | .neg e => [e]
  | .logic _ es => es
  | .field e _ => [e]
  | .item _ key => key
  | .sum _ body (some c) => [body, c]
  | .sum _ body none => [body]
  | _ => []

mutual
/-- Whether no decision variable occurs in an expression. Decision expressions are not looked
into, and of a sum only the body counts. -/
def isConstant : Expr K → Bool
  | .var _ _ _ | .ivar _ _ => false
  | .num _ | .str _ | .record _ _ | .name _ => true
  | .param _ idx => areConstant idx
  | .dexpr _ (some e) => isConstant e
  | .dexpr _ none => true
  | .arith _ l r | .rel _ l r => isConstant l && isConstant r
  | .neg e => isConstant e
  | .logic _ es => areConstant es
  | .field e _ => isConstant e
  | .item _ key => areConstant key
  | .sum _ body _ => isConstant body

/-- Whether no decision variable occurs in any of the expressions. -/
def areConstant : List (Expr K) → Bool
  | [] => true
  | e :: es => isConstant e && areConstant es
end

/-- A literal: a number, a text or a record. -/
def isLiteral : Expr K → Bool
  | .num _ | .str _ | .record _ _ => true
  | _ => false

def isNum : Expr K → Bool
  | .num _ => true
  | _ => false

/-- A chain of additions grouped to the left. The empty chain is zero. -/
def chain : List (Expr K) → Expr K
  | [] => zero
  | e :: es => es.foldl (.arith .add) e

end Expr

end LinearModel
