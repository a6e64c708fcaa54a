import LinearModel.Substitution
import LinearModel.Simplification

/-!
# Linear forms

An affine expression is split into terms: a factor for each occurrence of a decision variable, and
constants. The factor of an occurrence is the product of the constant multipliers and signs on the
way to it. Decision expressions are looked into, and are replaced by their value when no variable
is found there. The factors of a variable are added up, and a variable whose coefficient folds to
zero is dropped.
-/
namespace LinearModel

variable {K : Type} [Scalar K]

/-- A term of an affine expression. -/
inductive Term (K : Type) where
  /-- An occurrence of a single variable, with its factor. -/
  | occurrence (name base : String) (index : Option (Index K)) (factor : Expr K)
  | constant (e : Expr K)

/-- How the bodies of decision expressions are treated. -/
structure Descent (K : Type) where
  isConstant : Expr K → Env K → Run K Bool
  terms : Expr K → Expr K → Env K → Run K (List (Term K))

namespace Expr

mutual
/-- Whether no decision variable can be reached from an expression, looking into decision
expressions. All parts are looked at, even when the answer is known. -/
def isConstantLike (L : Lookup K) (below : Expr K → Env K → Run K Bool) :
    Expr K → Env K → Run K Bool
  | .var _ _ _, _ | .ivar _ _, _ => return false
  | .num _, _ | .str _, _ | .record _ _, _ | .name _, _ => return true
  | .dexpr s idx, env => do
    let env ← Run.ofExcept (env.enter s)
    below (← unfoldDexpr L s idx env) env
  | .param _ es, env | .logic _ es, env | .item _ es, env => areConstantLike L below es env
  | .arith _ l r, env | .rel _ l r, env => do
    let a ← isConstantLike L below l env
    let b ← isConstantLike L below r env
    return a && b
  | .neg e, env | .field e _, env | .sum _ e _, env => isConstantLike L below e env

/-- Whether no decision variable can be reached from any of the expressions. -/
def areConstantLike (L : Lookup K) (below : Expr K → Env K → Run K Bool) :
    List (Expr K) → Env K → Run K Bool
  | [], _ => return true
  | e :: es, env => do
    let a ← isConstantLike L below e env
    let b ← areConstantLike L below es env
    return a && b
end

mutual
/-- Whether a decision expression is referred to. -/
def mentionsDexpr : Expr K → Bool
  | .dexpr _ _ => true
  | .num _ | .str _ | .record _ _ | .name _ | .var _ _ _ => false
  | .param _ es | .ivar _ es | .logic _ es | .item _ es => anyMentionsDexpr es
  | .arith _ l r | .rel _ l r => mentionsDexpr l || mentionsDexpr r
  | .neg e | .field e _ => mentionsDexpr e
  | .sum _ body none => mentionsDexpr body
  | .sum _ body (some c) => mentionsDexpr body || mentionsDexpr c

/-- Whether a decision expression is referred to in any of the expressions. -/
def anyMentionsDexpr : List (Expr K) → Bool
  | [] => false
  | e :: es => mentionsDexpr e || anyMentionsDexpr es
end

/-- A constant multiplier: itself, or its value if it refers to decision expressions. -/
def resolveConstant (L : Lookup K) (e : Expr K) (env : Env K) : Run K (Expr K) :=
  if e.mentionsDexpr then return .num (← e.number L env.spawn) else return e

/-- Combine a factor with a constant, with the parameters known by now folded in. -/
def scale (op : ArithOp) (factor e : Expr K) : Run K (Expr K) := do
  Run.ofExcept ((Expr.arith op factor e).simplify (some (← Run.registry)))

def minusOne : Expr K := .num (Scalar.ofInt (-1))

/-- The terms of an affine expression under a factor, from left to right. -/
def terms (L : Lookup K) (below : Descent K) : Expr K → Expr K → Env K → Run K (List (Term K))
  | .var n b idx, factor, _ => return [.occurrence n b idx factor]
  | .ivar s idx, factor, env => do
    let (n, idx) ← variableAt s (elements L idx env)
    return [.occurrence n s (some idx) factor]
  | .dexpr s idx, factor, env => do
    let inside ← Run.ofExcept (env.enter s)
    let body ← unfoldDexpr L s idx inside
    if ← below.isConstant body inside then
      -- evaluated as a whole, and not unfolded
      let x ← (Expr.dexpr s idx).number L env.spawn
      return [.constant (← scale .mul factor (.num x))]
    else below.terms body factor inside
  | .sum its body c, _, _ => Run.fail (.sumNotFlattened (.sum its body c))
  | .rel op l r, _, _ => Run.fail (.logicalTerm (.rel op l r))
  | .logic op es, _, _ => Run.fail (.logicalTerm (.logic op es))
  | .str s, _, _ => Run.fail (.literalAsNumber (.str s))
  | .record s vs, _, _ => Run.fail (.literalAsNumber (.record s vs))
  | .neg e, factor, env => do
    if ← (Expr.neg e).isConstantLike L below.isConstant env then
      return [.constant (← scale .mul factor (← resolveConstant L (.neg e) env))]
    else terms L below e (← scale .mul factor minusOne) env
  | .arith op l r, factor, env => do
    if ← (Expr.arith op l r).isConstantLike L below.isConstant env then
      return [.constant (← scale .mul factor (← resolveConstant L (.arith op l r) env))]
    else
      match op with
      | .add => do
        let ls ← terms L below l factor env
        let rs ← terms L below r factor env
        return ls ++ rs
      | .sub => do
        let ls ← terms L below l factor env
        let rs ← terms L below r (← scale .mul factor minusOne) env
        return ls ++ rs
      | .mul => do
        -- the product is not constant, so at most one of its factors is
        if ← l.isConstantLike L below.isConstant env then
          terms L below r (← scale .mul factor (← resolveConstant L l env)) env
        else if ← r.isConstantLike L below.isConstant env then
          terms L below l (← scale .mul factor (← resolveConstant L r env)) env
        else Run.fail (.nonLinearProduct (.arith .mul l r))
      | .div => do
        if ← r.isConstantLike L below.isConstant env then
          terms L below l (← scale .div factor (← resolveConstant L r env)) env
        else Run.fail (.nonLinearDivision (.arith .div l r))
  | e, factor, env => do
    if ← e.isConstantLike L below.isConstant env then
      return [.constant (← scale .mul factor (← resolveConstant L e env))]
    else Run.fail (.unclassifiedTerm e)

end Expr

/-- The treatment of bodies that goes `n` decision expressions deep. -/
def descent (L : Lookup K) : Nat → Descent K
  | 0 =>
    { isConstant := fun _ _ => Run.fail .endless
      terms := fun _ _ _ => Run.fail .endless }
  | n + 1 =>
    { isConstant := fun e env => e.isConstantLike L (descent L n).isConstant env
      terms := fun e factor env => e.terms L (descent L n) factor env }

/-- A decision variable as it was declared: its symbol, and its index if it has one. -/
abbrev Origin (K : Type) := String × Option (Index K)

/-- A coefficient per variable and a constant, with the origin of each variable. -/
structure LinearForm (K : Type) where
  coefficients : Table String (Expr K)
  constant : Expr K
  origins : Table String (Origin K)

namespace LinearForm

/-- Enter the factor of a term under its variable, after those that are there. -/
def addFactor (t : Table String (List (Expr K))) : Term K → Table String (List (Expr K))
  | .occurrence n _ _ f => t.insert n ((t.find? n).getD [] ++ [f])
  | .constant _ => t

/-- The factors of each variable, in order of first occurrence. -/
def factors (ts : List (Term K)) : Table String (List (Expr K)) := ts.foldl addFactor Table.empty

def constants (ts : List (Term K)) : List (Expr K) :=
  ts.filterMap fun
    | .constant e => some e
    | .occurrence _ _ _ _ => none

/-- The origin of each variable. The last occurrence decides. -/
def originsOf (ts : List (Term K)) : Table String (Origin K) :=
  ts.foldl (fun t term =>
    match term with
    | .occurrence n b idx _ => t.insert n (b, idx)
    | .constant _ => t) Table.empty

/-- Whether a coefficient has folded to zero. -/
def isDropped : Expr K → Bool
  | .num x => Scalar.isZero x
  | _ => false

/-- The coefficients that terms add up to, before any is dropped. -/
def collect (r : Registry K) (ts : List (Term K)) : Except (Cause K) (List (String × Expr K)) :=
  (factors ts).toList.mapM fun e => do return (e.1, ← (Expr.chain e.2).simplify (some r))

/-- Gather terms into a linear form. -/
def ofTerms (r : Registry K) (ts : List (Term K)) : Except (Cause K) (LinearForm K) := do
  let coefficients ← collect r ts
  let kept := coefficients.filter fun e => !isDropped e.2
  let constant ← (Expr.chain (constants ts)).simplify (some r)
  let origins := originsOf ts
  -- a variable that is dropped has no origin either
  return {
    coefficients := ⟨kept⟩
    constant
    origins := ⟨kept.filterMap fun e => (origins.find? e.1).map fun o => (e.1, o)⟩ }

/-- A term of a listing: the coefficient one is left out, and a compound one is bracketed. -/
def termLiteral (name coefficient : String) : String :=
  if coefficient = "1" then name
  else if coefficient = "-1" then "-" ++ name
  else if coefficient.toList.contains ' ' then "(" ++ coefficient ++ ")*" ++ name
  else coefficient ++ "*" ++ name

/-- A further term of a listing, with its sign set apart. -/
def furtherLiteral (term : String) : String :=
  match term.toList with
  | '-' :: cs => " - " ++ String.ofList cs
  | _ => " + " ++ term

def coefficientsLiteral (t : Table String (Expr K)) : String :=
  match t.toList.map fun e => termLiteral e.1 e.2.literal with
  | [] => "0"
  | s :: ss => s ++ String.join (ss.map furtherLiteral)

def literal (f : LinearForm K) : String :=
  coefficientsLiteral f.coefficients ++ " + " ++ f.constant.literal

end LinearForm

/-- The numbers that coefficients evaluate to. -/
def evaluateCoefficients (t : Table String (Expr K)) : Run K (List (String × K)) :=
  t.toList.mapM fun e => do return (e.1, ← e.2.evaluate Env.empty)

/-- Add a coefficient times the value of its variable. -/
def addWeighted (values : Table String (Value K)) (sum : K) (c : String × Expr K) : Run K K := do
  let x ← c.2.evaluate Env.empty
  match values.find? c.1 with
  | none => Run.fail .missingKey
  | some v => return sum + (← Run.ofExcept (v.scaleBy x))

/-- The value of a linear form under an assignment to its variables. -/
def LinearForm.evaluate (f : LinearForm K) (values : Table String (Value K)) : Run K K := do
  let c ← f.constant.evaluate Env.empty
  f.coefficients.toList.foldlM (addWeighted values) c

/-- The terms of an expression under the bindings of an environment. -/
def affineTerms (e : Expr K) (env : Env K) : Run K (List (Term K)) := do
  let L ← Run.lookup
  let e ← e.substitute L env
  let below := descent L ((← Run.registry).dexprs.size + 1)
  e.terms L below (.num Scalar.one) env

/-- The linear form of an expression under the bindings of an environment. -/
def linearize (e : Expr K) (env : Env K) : Run K (LinearForm K) := do
  let ts ← affineTerms e env
  Run.ofExcept (LinearForm.ofTerms (← Run.registry) ts)

end LinearModel
