import LinearModel.Registry

/-!
# Simplification

Simplification folds operations between numbers, drops zeros and ones where they are neutral, and
removes double negations, children first. Given a registry, it also replaces references to
parameters that hold a value. Sums are left as sums, and no parameter is folded inside them,
because their iterators are not bound yet.
-/
namespace LinearModel

variable {K : Type} [Scalar K]

namespace Expr

def isNumber (e : Expr K) (x : K) : Bool :=
  match e with
  | .num y => Scalar.eq y x
  | _ => false

/-- The value of a literal as an element. -/
def literalValue : Expr K → Value K
  | .num x => (Value.real x).normalize
  | .str s => .str s
  | .record s vs => .record s vs
  | _ => .null

/-- Negate an expression: fold a number, and undo a negation. -/
def foldNeg : Expr K → Expr K
  | .num x => .num (-x)
  | .neg e => e
  | e => .neg e

/-- Combine two expressions: fold numbers, and drop neutral elements. -/
def foldArith (op : ArithOp) (l r : Expr K) : Expr K :=
  match l, r with
  | .num x, .num y => .num (op.apply x y)
  | l, r =>
    match op with
    | .add =>
      if l.isNumber Scalar.zero then r
      else if r.isNumber Scalar.zero then l
      else .arith .add l r
    | .sub =>
      if r.isNumber Scalar.zero then l
      else if l.isNumber Scalar.zero then foldNeg r
      else .arith .sub l r
    | .mul =>
      if l.isNumber Scalar.zero || r.isNumber Scalar.zero then zero
      else if l.isNumber Scalar.one then r
      else if r.isNumber Scalar.one then l
      else .arith .mul l r
    | .div => if r.isNumber Scalar.one then l else .arith .div l r

/-- Compare two expressions: fold literals. -/
def foldRel (op : RelOp) (l r : Expr K) : Except (Cause K) (Expr K) :=
  if l.isLiteral && r.isLiteral then
    (Value.compare op l.literalValue r.literalValue).map fun b => .num (Scalar.ofBool b)
  else .ok (.rel op l r)

/-- Whether an expression is a number that counts as true. -/
def isTrueNum : Expr K → Bool
  | .num x => Scalar.isTrue x
  | _ => false

/-- Apply a connective: fold numbers. -/
def foldLogic (op : LogicOp) (es : List (Expr K)) : Except (Cause K) (Expr K) :=
  if es.all isNum then
    match op, es with
    | .not, [] => .error .noOperand
    | .not, e :: _ => .ok (.num (Scalar.ofBool (!e.isTrueNum)))
    | .and, es => .ok (.num (Scalar.ofBool (es.all isTrueNum)))
    | .or, es => .ok (.num (Scalar.ofBool (es.any isTrueNum)))
  else .ok (.logic op es)

/-- A reference to a scalar parameter: its value, if it holds one. -/
def foldName (r : Option (Registry K)) (s : String) : Except (Cause K) (Expr K) :=
  match r.bind (·.params.find? s) with
  | none => .ok (.name s)
  | some p =>
    if p.isIndexed then .ok (.name s)
    else
      match p.value with
      | some v => ofValue v
      | none => .ok (.name s)

/-- A reference to an indexed parameter: its value, if the index is literal and it holds one
there. -/
def foldParam (r : Option (Registry K)) (s : String) (idx : List (Expr K)) :
    Except (Cause K) (Expr K) :=
  if !idx.all isLiteral then .ok (.param s idx)
  else
    match r.bind (·.params.find? s) with
    | none => .ok (.param s idx)
    | some p =>
      if p.dim ≠ idx.length then .ok (.param s idx)
      else
        match p.values.find? (idx.map fun e => e.literalValue.normalize) with
        | some v => ofValue v
        | none => .ok (.param s idx)

/-- A field of an expression: that of a record is its value. -/
def foldField (e : Expr K) (f : String) : Except (Cause K) (Expr K) :=
  match e with
  | .record s vs => Value.field s vs f >>= ofValue
  | e => .ok (.field e f)

mutual
def simplify (r : Option (Registry K)) : Expr K → Except (Cause K) (Expr K)
  | .num x => .ok (.num x)
  | .str s => .ok (.str s)
  | .record s vs => .ok (.record s vs)
  | .var n b idx => .ok (.var n b idx)
  | .name s => foldName r s
  | .param s idx => do foldParam r s (← simplifyAll r idx)
  | .ivar s idx => do return .ivar s (← simplifyAll r idx)
  | .dexpr s none => .ok (.dexpr s none)
  | .dexpr s (some e) => do return .dexpr s (some (← simplify r e))
  | .arith op a b => do
    let a ← simplify r a
    let b ← simplify r b
    return foldArith op a b
  | .neg e => do return foldNeg (← simplify r e)
  | .rel op a b => do
    let a ← simplify r a
    let b ← simplify r b
    foldRel op a b
  | .logic op es => do foldLogic op (← simplifyAll r es)
  | .field e f => do foldField (← simplify r e) f
  | .item set key => do return .item set (← simplifyAll r key)
  -- iterators may hide parameters, so none is folded in below them
  | .sum its body none => do return .sum its (← simplify none body) none
  | .sum its body (some c) => do
    let c ← simplify none c
    return .sum its (← simplify none body) (some c)

def simplifyAll (r : Option (Registry K)) : List (Expr K) → Except (Cause K) (List (Expr K))
  | [] => .ok []
  | e :: es => do
    let e ← simplify r e
    let es ← simplifyAll r es
    return e :: es
end

end Expr

end LinearModel
