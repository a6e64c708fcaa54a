import LinearModel.Evaluation

/-!
# Substitution

Substituting the bindings of an environment into an expression replaces bound iterators by their
values, indexed variables by single ones, record lookups by the records found, and sums by chains
of additions. References to parameters and decision expressions stay.
-/
namespace LinearModel

variable {K : Type} [Scalar K]

namespace Expr

mutual
/-- The expression with the bindings of an environment substituted. -/
def substitute (L : Lookup K) : Expr K → Env K → Run K (Expr K)
  | .num x, _ => return .num x
  | .str s, _ => return .str s
  | .record s vs, _ => return .record s vs
  | .var n b idx, _ => return .var n b idx
  | .name s, env => do
    match env.get? s with
    | some v => Run.ofExcept (ofValue v)
    | none => return .name s
  | .param s idx, env => do return .param s (← substituteAll L idx env)
  | .ivar s idx, env => do
    let (n, idx) ← variableAt s (elements L idx env)
    return .var n s (some idx)
  | .dexpr s none, _ => return .dexpr s none
  | .dexpr s (some e), env => do return .dexpr s (some (← substitute L e env))
  | .arith op l r, env => do
    let l ← substitute L l env
    let r ← substitute L r env
    return .arith op l r
  | .neg e, env => do return .neg (← substitute L e env)
  | .rel op l r, env => do
    let l ← substitute L l env
    let r ← substitute L r env
    return .rel op l r
  | .logic op es, env => do return .logic op (← substituteAll L es env)
  | .field e f, env => do
    match ← substitute L e env with
    | .record s vs => do Run.ofExcept (ofValue (← Run.ofExcept (Value.field s vs f)))
    | e => return .field e f
  | .item set key, env => do
    -- a record stands for its lookup, also where the key holds no bound name
    let key ← substituteAll L key env
    match ← recordAt set key.length (elements L key env) with
    | .record s vs => return .record s vs
    | _ => Run.fail .wrongKind
  | .sum its body none, env => do
    let terms ← enumerate L its none env fun inner => substitute L body inner
    return chain terms
  | .sum its body (some c), env => do
    let terms ← enumerate L its (some c) env fun inner => substitute L body inner
    return chain terms

/-- The expressions with the bindings of an environment substituted. -/
def substituteAll (L : Lookup K) : List (Expr K) → Env K → Run K (List (Expr K))
  | [], _ => return []
  | e :: es, env => do
    let e ← substitute L e env
    let es ← substituteAll L es env
    return e :: es
end

end Expr

/-- The body of a decision expression with its own index substituted. The bindings of the place
that refers to it are not seen. -/
def unfoldDexpr (L : Lookup K) (symbol : String) (index : Option (Expr K)) (env : Env K) :
    Run K (Expr K) := do
  let (d, inner) ← dexprScope symbol (index.map fun e env => e.value L env) env
  d.body.substitute L inner

end LinearModel
