import LinearModel.Error

/-!
# Operations on expressions

Arithmetic operators combine expressions into larger ones. An operation starts from an expression
that can be a number: texts, records, comparisons and connectives have no operators of their own.
-/
namespace LinearModel.Expr

variable {K : Type}

/-- Whether an expression has arithmetic operators. -/
def hasOperators : Expr K → Bool
  | .str _ | .record _ _ | .rel _ _ _ | .logic _ _ => false
  | _ => true

/-- An expression combined with another one. -/
def combine (op : ArithOp) (a b : Expr K) : Except (Cause K) (Expr K) :=
  if a.hasOperators then .ok (.arith op a b) else .error .wrongKind

def negate (a : Expr K) : Except (Cause K) (Expr K) :=
  if a.hasOperators then .ok (.neg a) else .error .wrongKind

end LinearModel.Expr
