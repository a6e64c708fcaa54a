import LinearModel.Expr
import LinearModel.Value.Text

/-!
# Text of expressions

Expressions are written in the notation of a model, with as few brackets as reading back allows
within arithmetic: an operand is bracketed when it binds less tightly, and on the right also when
it binds equally tightly under an operator that may not be regrouped.
-/
namespace LinearModel

variable {K : Type} [Scalar K]

def bracketIf (needed : Bool) (s : String) : String := if needed then "(" ++ s ++ ")" else s

namespace Expr

/-- Whether a left operand of an operator is bracketed. -/
def bracketsLeft (op : ArithOp) : Expr K → Bool
  | .arith inner _ _ => inner.precedence < op.precedence
  | _ => false

/-- Whether a right operand of an operator is bracketed. -/
def bracketsRight (op : ArithOp) : Expr K → Bool
  | .arith inner _ _ =>
    inner.precedence < op.precedence
      || (inner.precedence == op.precedence && !op.isAssociative)
  | .neg _ => true
  | _ => false

def bracketsUnderNeg : Expr K → Bool
  | .arith _ _ _ | .neg _ => true
  | _ => false

def bracketsInLogic : Expr K → Bool
  | .logic .not _ => false
  | .logic _ _ => true
  | _ => false

def bracketsInSum : Expr K → Bool
  | .arith _ _ _ => true
  | _ => false

mutual
def literal : Expr K → String
  | .num x => Scalar.literal x
  | .str s => Value.quote s
  | .record _ vs => Value.keyLiteral vs
  | .name s => s
  | .param s idx | .ivar s idx => s ++ String.join (bracketed idx)
  | .var s _ _ => s
  | .dexpr s none => s
  | .dexpr s (some e) => s ++ "[" ++ literal e ++ "]"
  | .arith op l r =>
    bracketIf (bracketsLeft op l) (literal l) ++ " " ++ op.symbol ++ " "
      ++ bracketIf (bracketsRight op r) (literal r)
  | .neg e => "-" ++ bracketIf (bracketsUnderNeg e) (literal e)
  | .rel op l r => literal l ++ " " ++ op.symbol ++ " " ++ literal r
  | .logic .not es => "!(" ++ (literals es).headD "" ++ ")"
  | .logic op es => String.intercalate (" " ++ op.symbol ++ " ") (operandLiterals es)
  | .field e f => literal e ++ "." ++ f
  | .item set [e] => "item(" ++ set ++ ", " ++ literal e ++ ")"
  | .item set es => "item(" ++ set ++ ", <" ++ String.intercalate "," (literals es) ++ ">)"
  | .sum its body none =>
    "sum(" ++ String.intercalate ", " (iterLiterals its) ++ ") "
      ++ bracketIf (bracketsInSum body) (literal body)
  | .sum its body (some c) =>
    "sum(" ++ String.intercalate ", " (iterLiterals its) ++ ": " ++ literal c ++ ") "
      ++ bracketIf (bracketsInSum body) (literal body)

def literals : List (Expr K) → List String
  | [] => []
  | e :: es => literal e :: literals es

/-- The texts of index expressions, each in square brackets. -/
def bracketed : List (Expr K) → List String
  | [] => []
  | e :: es => ("[" ++ literal e ++ "]") :: bracketed es

def operandLiterals : List (Expr K) → List String
  | [] => []
  | e :: es => bracketIf (bracketsInLogic e) (literal e) :: operandLiterals es

def iterLiterals : List (Iter K) → List String
  | [] => []
  | it :: its => iterLiteral it :: iterLiterals its

def iterLiteral : Iter K → String
  | .mk s src none => s ++ " in " ++ sourceLiteral src
  | .mk s src (some f) => s ++ " in " ++ sourceLiteral src ++ ": " ++ literal f

def sourceLiteral : Source K → String
  | .named s none => s
  | .named s (some e) => s ++ "[" ++ literal e ++ "]"
  | .range a b => literal a ++ ".." ++ literal b
end

end Expr

/-- The text of a list of iterators with the condition on all of them. -/
def iteratorsLiteral (its : List (Iter K)) (condition : Option (Expr K)) : String :=
  let body := String.intercalate ", " (Expr.iterLiterals its)
  match condition with
  | none => body
  | some c => body ++ ": " ++ c.literal

end LinearModel
